import MemInfo.Lib.CommandLine

/-! # The launcher

`meminfo_launch` reads its options, sets the environment of the hook and starts the target with a
command line of its own making: every argument between quotation marks, nothing escaped. The
target's C runtime takes that line apart again, and gets the arguments back exactly when no mark
and no closing backslash comes between.
-/

namespace MemInfo

open Lib CommandLine

namespace Launch

/-- What `main` reads from its arguments. -/
structure Options where
  target : String := ""
  dllPath : String := ""
  mode : String := "log"
  peer : String := ""
  port : String := ""
  socketName : String := ""
  threshold : String := ""
  heapSize : String := ""
  budget : String := ""
  page : String := ""
  logPath : String := ""
  setGslice : Bool := true
  targetArgs : List String := []
  deriving DecidableEq, Repr

/-- Why `main` returns without starting anything. -/
inductive Exit where
  | help
  | unknownOption (arg : String)
  | targetRequired
  | dllNotFound (path : String)
  deriving DecidableEq, Repr

/-- What `main` returns then. -/
def Exit.code : Exit → ℕ
  | .help => 0
  | .unknownOption _ => 2
  | .targetRequired => 2
  | .dllNotFound _ => 1

def setter : String → Option (String → Options → Options)
  | "--target" => some fun v o => { o with target := v }
  | "--dll" => some fun v o => { o with dllPath := v }
  | "--mode" => some fun v o => { o with mode := v }
  | "--peer" => some fun v o => { o with peer := v }
  | "--port" => some fun v o => { o with port := v }
  | "--socket" => some fun v o => { o with socketName := v }
  | "--threshold" => some fun v o => { o with threshold := v }
  | "--heap-size" => some fun v o => { o with heapSize := v }
  | "--budget" => some fun v o => { o with budget := v }
  | "--page" => some fun v o => { o with page := v }
  | "--log" => some fun v o => { o with logPath := v }
  | _ => none

/-- The loop over the arguments. An option at the very end has no value and changes nothing. -/
def parse : List String → Options → Except Exit Options
  | [], o => .ok o
  | arg :: rest, o =>
    match setter arg with
    | some set =>
      match rest with
      | v :: rest' => parse rest' (set v o)
      | [] => .ok o
    | none =>
      if arg = "--no-gslice" then parse rest { o with setGslice := false }
      else if arg = "--help" ∨ arg = "-h" then .error .help
      else if arg = "--" then .ok { o with targetArgs := o.targetArgs ++ rest }
      else .error (.unknownOption arg)

structure Machine where
  /-- `GetModuleFileNameA`, `none` where it fails or the path is too long. -/
  moduleFileName : Option String
  /-- `GetFileAttributesA` answers. -/
  fileExists : String → Bool

def isSlash (c : Char) : Bool := c == '\\' || c == '/'

def moduleDirectory (m : Machine) : String :=
  match m.moduleFileName with
  | none => "."
  | some full =>
    match full.toList.reverse.dropWhile fun c => !isSlash c with
    | [] => "."
    | _ :: directory => String.ofList directory.reverse

def setEnv (name value : String) : List (String × String) :=
  if value.isEmpty then [] else [(name, value)]

def environment (o : Options) : List (String × String) :=
  setEnv "MEMINFO_HOOK_MODE" o.mode ++ setEnv "MEMINFO_PEER" o.peer ++
    setEnv "MEMINFO_PORT" o.port ++ setEnv "MEMINFO_SOCKET" o.socketName ++
    setEnv "MEMINFO_THRESHOLD" o.threshold ++ setEnv "MEMINFO_HEAP_SIZE" o.heapSize ++
    setEnv "MEMINFO_BUDGET" o.budget ++ setEnv "MEMINFO_PAGE" o.page ++
    setEnv "MEMINFO_LOG" o.logPath ++
    if o.setGslice then [("G_SLICE", "always-malloc")] else []

def commandLine (target : String) (targetArgs : List String) : String :=
  targetArgs.foldl (fun line arg => line ++ (" \"" ++ arg ++ "\"")) ("\"" ++ target ++ "\"")

/-- What `DetourCreateProcessWithDllEx` is called with, and the environment the child inherits. -/
structure Request where
  applicationName : String
  commandLine : String
  dllPath : String
  environment : List (String × String)
  deriving DecidableEq, Repr

/-- `main` up to the start of the process; `argv` without the launcher's own name. -/
def main (m : Machine) (argv : List String) : Except Exit Request := do
  let o ← parse argv {}
  if o.target.isEmpty then throw .targetRequired
  let dllPath := if o.dllPath.isEmpty then moduleDirectory m ++ "\\meminfo_hook.dll" else o.dllPath
  if !m.fileExists dllPath then throw (.dllNotFound dllPath)
  return {
    applicationName := o.target
    commandLine := commandLine o.target o.targetArgs
    dllPath := dllPath
    environment := environment o }

/-- The `argv` of the target, taken from its command line by the C runtime. -/
def targetArgv (line : String) : List String := (argv line.toList).map String.ofList

/-! ## The arguments between marks -/

def argText (args : List (List Char)) : List Char :=
  args.flatMap fun a => ' ' :: '"' :: (a ++ ['"'])

def Safe (a : List Char) : Prop := '"' ∉ a ∧ a.getLast? ≠ some '\\'

/-- The lists of arguments that reach the target unchanged. A single mark at the very end of the
line is read together with the closing one as a character. -/
def Passes : List (List Char) → Prop
  | [] => True
  | [a] => Safe a ∨ ∃ u, Safe u ∧ a = u ++ ['"']
  | a :: b :: args => Safe a ∧ Passes (b :: args)

section ArgText

variable {a : List Char} {args : List (List Char)}

theorem argText_cons (a : List Char) (args : List (List Char)) :
    argText (a :: args) = ' ' :: '"' :: (a ++ '"' :: argText args) := by
  simp [argText]

theorem argText_eq_nil : argText args = [] ↔ args = [] := by
  cases args <;> simp [argText]

theorem toList_commandLine (target : String) (args : List String) :
    (commandLine target args).toList =
      '"' :: (target.toList ++ '"' :: argText (args.map String.toList)) := by
  have hfold (line : String) :
      (args.foldl (fun line arg => line ++ (" \"" ++ arg ++ "\"")) line).toList =
        line.toList ++ argText (args.map String.toList) := by
    induction args generalizing line with
    | nil => simp [argText]
    | cons a args ih => simp [ih, argText_cons]
  simp [commandLine, hfold]

theorem ends_argText (args : List (List Char)) : Ends (argText args) := by
  cases args with
  | nil => exact Or.inl rfl
  | cons a args => exact Or.inr ⟨_, argText_cons a args⟩

theorem count_argText (args : List (List Char)) :
    (argText args).count '\\' = args.flatten.count '\\' := by
  induction args with
  | nil => rfl
  | cons a args ih => simp [argText_cons, ih]

theorem arguments_after_argText (t : List Char) (args : List (List Char)) :
    arguments (.after t) (argText args) = t :: arguments {} (argText args) := by
  cases args with
  | nil => simp [argText, arguments, Scan.finish]
  | cons a args =>
    rw [argText_cons, arguments_after_blank rfl, arguments_nil_blank]

theorem programName_argText (args : List (List Char)) :
    (programName false (argText args)).1 = [] ∧
      arguments {} (programName false (argText args)).2 = arguments {} (argText args) := by
  cases args with
  | nil => exact ⟨rfl, rfl⟩
  | cons a args =>
    rw [argText_cons]
    exact ⟨rfl, rfl⟩

theorem passes_cons : Passes (a :: args) ↔
    Safe a ∧ Passes args ∨ args = [] ∧ ∃ u, Safe u ∧ a = u ++ ['"'] := by
  cases args <;> simp [Passes]

theorem hasEscape_argText_cons : hasEscape false (argText (a :: args)) = false ↔
    hasEscape false (a ++ '"' :: argText args) = false := by
  rw [argText_cons, hasEscape_cons (by decide), hasEscape_cons_mark]
  exact Iff.rfl

theorem Safe.hasEscape_quoted {s : List Char} (ha : Safe a) (hs : hasEscape false s = false) :
    hasEscape false (a ++ '"' :: s) = false :=
  CommandLine.hasEscape_quoted.2 ⟨hasEscape_of_not_mem ha.1 false, ha.2, hs⟩

theorem hasEscape_of_passes (h : Passes args) : hasEscape false (argText args) = false := by
  induction args with
  | nil => rfl
  | cons a args ih =>
    rw [hasEscape_argText_cons]
    rcases passes_cons.1 h with ⟨ha, hargs⟩ | ⟨rfl, u, hu, rfl⟩
    · exact ha.hasEscape_quoted (ih hargs)
    · rw [List.append_assoc]
      exact hu.hasEscape_quoted rfl

theorem arguments_argText_iff_passes (h : hasEscape false (argText args) = false) :
    arguments {} (argText args) = args ↔ Passes args := by
  induction args with
  | nil => simp [argText, arguments, Scan.finish, Passes]
  | cons a args ih =>
    rw [hasEscape_argText_cons] at h
    obtain ⟨hesc, hlast, hargs⟩ := hasEscape_quoted.1 h
    rw [argText_cons, arguments_nil_blank, arguments_nil_mark, passes_cons]
    by_cases ha : '"' ∈ a
    · constructor
      · intro heq
        have hor := marks_of_head (ends_argText args) a [] h (by rw [heq]; rfl)
        rcases hor with hmem | ⟨hend, u, hu, rfl⟩
        · exact absurd ha hmem
        · exact Or.inr ⟨argText_eq_nil.1 hend, u, ⟨hu, (hasEscape_quoted.1 hesc).2.1⟩, rfl⟩
      · rintro (⟨hsafe, -⟩ | ⟨rfl, u, hu, rfl⟩)
        · exact absurd ha hsafe.1
        · rw [List.append_assoc] at h ⊢
          rw [List.singleton_append] at h ⊢
          rw [arguments_inside_plain hu.1 h]
          simp [argText]
    · have hcons : arguments (.inside []) (a ++ '"' :: argText args) =
          a :: arguments {} (argText args) := by
        rw [arguments_inside_plain ha h, arguments_after_argText, List.nil_append]
      rw [hcons, List.cons_inj_right, ih hargs]
      constructor
      · exact fun hpass => Or.inl ⟨⟨ha, hlast⟩, hpass⟩
      · rintro (⟨-, hpass⟩ | ⟨-, u, -, rfl⟩)
        · exact hpass
        · simp at ha

theorem arguments_argText_iff : arguments {} (argText args) = args ↔ Passes args := by
  constructor
  · intro heq
    have hcount := count_arguments_le {} (argText args)
    rw [heq, count_argText] at hcount
    have hesc : hasEscape false (argText args) = false := by
      cases hb : hasEscape false (argText args) with
      | false => rfl
      | true =>
        change _ + (hasEscape false (argText args)).toNat ≤ 0 + 0 + _ at hcount
        rw [hb, Bool.toNat_true] at hcount
        omega
    exact (arguments_argText_iff_passes hesc).1 heq
  · intro hpass
    exact (arguments_argText_iff_passes (hasEscape_of_passes hpass)).2 hpass

end ArgText

/-! ## What the target gets -/

/-- What may stand on the command line before the `--`. -/
inductive Setting where
  | value (name v : String) (known : (setter name).isSome)
  | noGslice

namespace Setting

def words : Setting → List String
  | value name v _ => [name, v]
  | noGslice => ["--no-gslice"]

def valueFor (name : String) : Setting → Option String
  | value name' v _ => if name' = name then some v else none
  | noGslice => none

def apply : Setting → Options → Options
  | value name v known, o => (setter name).get known v o
  | noGslice, o => { o with setGslice := false }

end Setting

/-- The value that an option is given last; it is empty where the option is not given. -/
def lastValue (name : String) (settings : List Setting) : String :=
  (settings.filterMap (Setting.valueFor name)).getLast?.getD ""

def hookPath (m : Machine) (settings : List Setting) : String :=
  if lastValue "--dll" settings = "" then moduleDirectory m ++ "\\meminfo_hook.dll"
  else lastValue "--dll" settings

/-- The words of a command line with arguments for the target. -/
def words (settings : List Setting) (args : List String) : List String :=
  settings.flatMap Setting.words ++ "--" :: args

theorem fields_of_setter {name v : String} {o : Options} {set : String → Options → Options}
    (h : setter name = some set) :
    (set v o).target = (if name = "--target" then v else o.target) ∧
      (set v o).dllPath = (if name = "--dll" then v else o.dllPath) ∧
      (set v o).targetArgs = o.targetArgs := by
  unfold setter at h
  split at h
  all_goals
    cases h
    try simp

theorem parse_words (s : Setting) (rest : List String) (o : Options) :
    parse (s.words ++ rest) o = parse rest (s.apply o) := by
  rcases s with ⟨name, v, known⟩ | _
  · obtain ⟨set, hset⟩ := Option.isSome_iff_exists.mp known
    simp [Setting.words, Setting.apply, parse, hset, Option.get_of_eq_some known hset]
  · simp [Setting.words, Setting.apply, parse, setter]

theorem parse_settings (settings : List Setting) (args : List String) (o : Options) :
    parse (words settings args) o =
      .ok { settings.foldl (fun o s => s.apply o) o with
        targetArgs := (settings.foldl (fun o s => s.apply o) o).targetArgs ++ args } := by
  induction settings generalizing o with
  | nil => simp [words, parse, setter]
  | cons s settings ih =>
    rw [words, List.flatMap_cons, List.append_assoc, parse_words]
    exact ih (s.apply o)

theorem fields_apply (s : Setting) (o : Options) :
    (s.apply o).target = (s.valueFor "--target").getD o.target ∧
      (s.apply o).dllPath = (s.valueFor "--dll").getD o.dllPath ∧
      (s.apply o).targetArgs = o.targetArgs := by
  rcases s with ⟨name, v, known⟩ | _
  · obtain ⟨htarget, hdll, hargs⟩ := fields_of_setter (v := v) (o := o) (Option.some_get known).symm
    simp only [Setting.apply, Setting.valueFor, htarget, hdll, hargs, and_true]
    constructor
    · split <;> rfl
    · split <;> rfl
  · exact ⟨rfl, rfl, rfl⟩

theorem getD_getLast?_filterMap {α β : Type} (f : α → Option β) (a : α) (l : List α) (d : β) :
    ((a :: l).filterMap f).getLast?.getD d = (l.filterMap f).getLast?.getD ((f a).getD d) := by
  cases h : f a <;> simp [h, List.getLast?_cons]

theorem fields_foldl (settings : List Setting) (o : Options) :
    (settings.foldl (fun o s => s.apply o) o).target =
        (settings.filterMap (Setting.valueFor "--target")).getLast?.getD o.target ∧
      (settings.foldl (fun o s => s.apply o) o).dllPath =
        (settings.filterMap (Setting.valueFor "--dll")).getLast?.getD o.dllPath ∧
      (settings.foldl (fun o s => s.apply o) o).targetArgs = o.targetArgs := by
  induction settings generalizing o with
  | nil => exact ⟨rfl, rfl, rfl⟩
  | cons s settings ih =>
    obtain ⟨htarget, hdll, hargs⟩ := fields_apply s o
    simpa only [List.foldl_cons, getD_getLast?_filterMap, htarget, hdll, hargs] using ih (s.apply o)

theorem main_words {m : Machine} {settings : List Setting} (args : List String)
    (htarget : lastValue "--target" settings ≠ "") (hdll : m.fileExists (hookPath m settings)) :
    ∃ r, main m (words settings args) = .ok r ∧
      r.commandLine = commandLine (lastValue "--target" settings) args := by
  obtain ⟨ht, hd, ha⟩ := fields_foldl settings {}
  change _ = lastValue "--target" settings at ht
  change _ = lastValue "--dll" settings at hd
  rw [hookPath] at hdll
  simp [main, parse_settings, ht, hd, ha, htarget, hdll, bind, Except.bind, pure, Except.pure]

theorem argv_commandLine_iff (target : List Char) (args : List (List Char)) :
    argv ('"' :: (target ++ '"' :: argText args)) = target :: args ↔
      '"' ∉ target ∧ Passes args := by
  have hname : programName false ('"' :: (target ++ '"' :: argText args)) =
      programName true (target ++ '"' :: argText args) := by simp [programName]
  by_cases ht : '"' ∈ target
  · -- the name never has a mark
    have hne : argv ('"' :: (target ++ '"' :: argText args)) ≠ target :: args := by
      intro heq
      rw [argv, List.cons.injEq] at heq
      exact not_mem_programName _ _ (heq.1 ▸ ht)
    simp [hne, ht]
  · obtain ⟨hfirst, hrest⟩ := programName_argText args
    rw [argv, hname, programName_quoted ht, hfirst, hrest, List.append_nil, List.cons_inj_right,
      arguments_argText_iff]
    simp [ht]

theorem targetArgv_eq_iff (line : String) (l : List String) :
    targetArgv line = l ↔ argv line.toList = l.map String.toList := by
  constructor
  · rintro rfl
    simp [targetArgv, Function.comp_def]
  · intro h
    simp [targetArgv, h, Function.comp_def]

/-- Whatever is set before the `--`: the target gets its path and the arguments after the `--`
unchanged exactly if the path has no mark and the arguments pass. -/
theorem arguments_reach_target_iff (m : Machine) (settings : List Setting) (args : List String)
    (htarget : lastValue "--target" settings ≠ "") (hdll : m.fileExists (hookPath m settings)) :
    ∃ r, main m (words settings args) = .ok r ∧
      (targetArgv r.commandLine = lastValue "--target" settings :: args ↔
        '"' ∉ (lastValue "--target" settings).toList ∧ Passes (args.map String.toList)) := by
  obtain ⟨r, hr, hline⟩ := main_words args htarget hdll
  refine ⟨r, hr, ?_⟩
  rw [hline, targetArgv_eq_iff, toList_commandLine, List.map_cons]
  exact argv_commandLine_iff _ _

def installed : Machine where
  moduleFileName := some "C:\\meminfo\\meminfo_launch.exe"
  fileExists := fun path => path == "C:\\meminfo\\meminfo_hook.dll"

theorem spaces_reach_target : ∃ r,
    main installed ["--target", "gimp.exe", "--no-gslice", "--mode", "remote", "--target",
      "C:\\Program Files\\gimp.exe", "--", "-n", "", "my picture.xcf"] = .ok r ∧
    targetArgv r.commandLine = ["C:\\Program Files\\gimp.exe", "-n", "", "my picture.xcf"] := by
  have hpass : Passes (["-n", "", "my picture.xcf"].map String.toList) := by simp [Passes, Safe]
  obtain ⟨r, hr, hiff⟩ := arguments_reach_target_iff installed
    [.value "--target" "gimp.exe" rfl, .noGslice, .value "--mode" "remote" rfl,
      .value "--target" "C:\\Program Files\\gimp.exe" rfl]
    ["-n", "", "my picture.xcf"] (by decide) (by decide)
  exact ⟨r, hr, hiff.2 ⟨by decide, hpass⟩⟩

/-- A mark inside an argument is lost, and a backslash at its end joins it to the next one. -/
theorem arguments_changed :
    (∃ r, main installed ["--target", "t.exe", "--", "say \"hi\""] = .ok r ∧
      targetArgv r.commandLine = ["t.exe", "say hi"]) ∧
    ∃ r, main installed ["--target", "t.exe", "--", "C:\\dir\\", "x"] = .ok r ∧
      targetArgv r.commandLine = ["t.exe", "C:\\dir\" x"] := by
  constructor
  · exact ⟨_, rfl, by decide⟩
  · exact ⟨_, rfl, by decide⟩

end Launch

end MemInfo
