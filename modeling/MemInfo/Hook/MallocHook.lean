import MemInfo.Lib.Blocks
import MemInfo.Lib.Dict
import MemInfo.Lib.Prog
import MemInfo.Memclient.HeapArena

/-! # The malloc interposer

The hooks of one C runtime. Large allocations come from the arena over the remote heap, all
others from the allocator of the runtime; an address tells which of the two a block belongs to.
What the hooks call is an effect.
-/

namespace MemInfo

open Lib

/-- What the hooks read of `g_config` and of their slot. -/
structure HookConfig where
  remoteMode : Bool
  threshold : ℕ
  /-- The slot has a `real_msize`. -/
  hasMsize : Bool
  deriving DecidableEq, Repr

structure HookRegion where
  base : ℕ
  size : ℕ
  fits : base + size < 2 ^ 64

inductive HookOp where
  | shouldPassThrough
  | ensureInitialized
  | arenaOwns (p : ℕ)
  | arenaAllocate (bytes alignment : ℕ)
  | arenaDeallocate (p : ℕ)
  | arenaBlockSize (p : ℕ)
  | realMalloc (bytes : ℕ)
  | realCalloc (count size : ℕ)
  | realRealloc (p bytes : ℕ)
  | realFree (p : ℕ)
  | realMsize (p : ℕ)
  /-- `memset` to zero. -/
  | memset (p bytes : ℕ)
  | memcpy (dst src bytes : ℕ)
  /-- A store of the application itself. -/
  | store (addr : ℕ) (v : Byte)
  deriving DecidableEq, Repr

@[reducible] def HookOp.Res : HookOp → Type
  | .shouldPassThrough | .ensureInitialized | .arenaOwns _ => Bool
  | .arenaDeallocate _ | .realFree _ | .memset .. | .memcpy .. | .store .. => Unit
  | _ => ℕ

abbrev HookM := Prog HookOp HookOp.Res Empty

abbrev hookDo (o : HookOp) : HookM o.Res := Prog.perform o

namespace Hook

variable (config : HookConfig)

def remoteAllocate (bytes alignment : ℕ) : HookM ℕ := do
  if !config.remoteMode then return 0
  else if !(← hookDo .ensureInitialized) then return 0
  else hookDo (.arenaAllocate bytes alignment)

/-- The block is too small to be redirected, or it is asked for by the redirection itself. -/
def passesThrough (bytes : ℕ) : HookM Bool := do
  if bytes < config.threshold then return true
  else hookDo .shouldPassThrough

def remoteOrReal (bytes : ℕ) : HookM ℕ := do
  let p ← remoteAllocate config bytes 16
  if p ≠ 0 then return p
  else hookDo (.realMalloc bytes)

def hookedMalloc (bytes : ℕ) : HookM ℕ := do
  if ← passesThrough config bytes then hookDo (.realMalloc bytes)
  else remoteOrReal config bytes

def hookedCalloc (count size : ℕ) : HookM ℕ := do
  if count ≠ 0 ∧ size > sizeMax / count then return 0
  else
    let bytes := wrap (count * size)
    if ← passesThrough config bytes then
      hookDo (.realCalloc count size)
    else
      let p ← remoteAllocate config bytes 16
      if p = 0 then hookDo (.realCalloc count size)
      else
        hookDo (.memset p bytes)
        return p

def hookedFree (p : ℕ) : HookM Unit := do
  if p = 0 then hookDo (.realFree p)
  else if ← hookDo (.arenaOwns p) then hookDo (.arenaDeallocate p)
  else hookDo (.realFree p)

def hookedMsize (p : ℕ) : HookM ℕ := do
  if p = 0 then hookDo (.realMsize p)
  else if ← hookDo (.arenaOwns p) then hookDo (.arenaBlockSize p)
  else hookDo (.realMsize p)

/-- `hooked_realloc` of a block of the arena. -/
def reallocArena (p bytes : ℕ) : HookM ℕ := do
  let oldBytes ← hookDo (.arenaBlockSize p)
  let dst ← remoteOrReal config bytes
  if dst = 0 then return 0
  else
    hookDo (.memcpy dst p (min oldBytes bytes))
    hookDo (.arenaDeallocate p)
    return dst

/-- `hooked_realloc` of a block of the runtime that is to grow past the threshold. -/
def reallocReal (p bytes : ℕ) : HookM ℕ := do
  let oldBytes ← hookDo (.realMsize p)
  let dst ← remoteAllocate config bytes 16
  if dst = 0 then hookDo (.realRealloc p bytes)
  else
    hookDo (.memcpy dst p (min oldBytes bytes))
    hookDo (.realFree p)
    return dst

def hookedRealloc (p bytes : ℕ) : HookM ℕ := do
  if p = 0 then hookedMalloc config bytes
  else if bytes = 0 then
    hookedFree p
    return 0
  else if ← hookDo (.arenaOwns p) then reallocArena config p bytes
  else if ← passesThrough config bytes then hookDo (.realRealloc p bytes)
  else if !config.hasMsize then hookDo (.realRealloc p bytes)
  else reallocReal config p bytes

end Hook

/-- What the application does: it calls the hooks, and stores to its blocks. -/
inductive HookCall where
  | malloc (bytes : ℕ)
  | calloc (count size : ℕ)
  | realloc (p bytes : ℕ)
  | free (p : ℕ)
  | msize (p : ℕ)
  | store (addr : ℕ) (v : Byte)
  deriving DecidableEq, Repr

def HookCall.exec (config : HookConfig) : HookCall → HookM ℕ
  | .malloc bytes => Hook.hookedMalloc config bytes
  | .calloc count size => Hook.hookedCalloc config count size
  | .realloc p bytes => Hook.hookedRealloc config p bytes
  | .free p => do
    Hook.hookedFree p
    return 0
  | .msize p => Hook.hookedMsize p
  | .store addr v => do
    hookDo (.store addr v)
    return 0

/-! ## The process -/

inductive Owner where
  | arena
  | crt
  deriving DecidableEq, Repr

/-- A block of the runtime: what was asked for, and what `_msize` says. -/
structure RealBlock where
  size : ℕ
  msize : ℕ
  deriving DecidableEq, Repr

def RealBlock.block (b : RealBlock) : Block Owner := ⟨.crt, b.size, b.msize⟩

/-- The memory of the process, the live blocks of the runtime, and `g_state`: the arena once it
is ready, and whether its construction has failed. -/
structure HookWorld where
  mem : ℕ → Byte
  real : Dict ℕ RealBlock := ∅
  arena : Option HeapArena := none
  failed : Bool := false

def HeapArena.blockAt (a : HeapArena) (p : ℕ) : Option ℕ :=
  if a.owns p then a.liveBlocks.find (p - a.base) else none

namespace HookWorld

variable (w : HookWorld)

def arenaOwns (p : ℕ) : Bool := w.arena.any (·.owns p)

def blocks : Blocks Owner := fun p =>
  match w.arena.bind (·.blockAt p) with
  | some n => some ⟨.arena, n, n⟩
  | none => (w.real.lookup p).map RealBlock.block

def heap : BlockHeap Owner Byte := ⟨w.blocks, w.mem⟩

end HookWorld

/-- The addresses of a block of the runtime are outside of the region. -/
def HookRegion.Outside (R : HookRegion) (p n : ℕ) : Prop :=
  p + n ≤ R.base ∨ R.base + R.size ≤ p

/-- The runtime writes only to memory of its own: not to the region, and not to live blocks. -/
def Untouched (R : HookRegion) (real : Dict ℕ RealBlock) (m m' : ℕ → Byte) : Prop :=
  (∀ a, R.base ≤ a → a < R.base + R.size → m' a = m a) ∧
    ∀ p b, real.lookup p = some b → ∀ i < b.msize, m' (p + i) = m (p + i)

/-- The runtime hands out a block that is large enough, outside of the region and apart from the
blocks that are live. -/
structure Hands (R : HookRegion) (real : Dict ℕ RealBlock) (p : ℕ) (b : RealBlock) : Prop where
  ne_null : p ≠ 0
  size_le : b.size ≤ b.msize
  outside : R.Outside p b.block.span
  apart : ∀ q c, real.lookup q = some c → p + b.block.span ≤ q ∨ q + c.block.span ≤ p

def hookEnv (R : HookRegion) : (o : HookOp) → HookWorld → o.Res → HookWorld → Prop
  | .shouldPassThrough, w, _, w' => w' = w
  | .ensureInitialized, w, r, w' =>
    match w.arena with
    | some _ => r = true ∧ w' = w
    | none =>
      r = false ∧ w' = { w with failed := true } ∨
        w.failed = false ∧ r = true ∧ w' = { w with arena := some (.new R.base R.size) }
  | .arenaOwns p, w, r, w' => r = w.arenaOwns p ∧ w' = w
  | .arenaAllocate bytes alignment, w, r, w' =>
    ∃ a, w.arena = some a ∧ r = (a.allocate bytes alignment).1 ∧
      w' = { w with arena := some (a.allocate bytes alignment).2 }
  | .arenaDeallocate p, w, _, w' =>
    ∃ a, w.arena = some a ∧ w' = { w with arena := some (a.deallocate p) }
  | .arenaBlockSize p, w, r, w' => ∃ a, w.arena = some a ∧ r = a.blockSize p ∧ w' = w
  | .realMalloc bytes, w, r, w' =>
    ∃ m, Untouched R w.real w.mem m ∧
      (r = 0 ∧ w' = { w with mem := m } ∨
        ∃ b, b.size = bytes ∧ Hands R w.real r b ∧
          w' = { w with mem := m, real := w.real.insert r b })
  | .realCalloc count size, w, r, w' =>
    ∃ m, Untouched R w.real w.mem m ∧
      (r = 0 ∧ w' = { w with mem := m } ∨
        ∃ b, b.size = count * size ∧ Hands R w.real r b ∧ (∀ i < b.size, m (r + i) = 0) ∧
          w' = { w with mem := m, real := w.real.insert r b })
  -- on failure the old block stays; otherwise it may grow in place or be moved
  | .realRealloc p bytes, w, r, w' =>
    ∃ old, w.real.lookup p = some old ∧ ∃ m,
      (r = 0 ∧ Untouched R w.real w.mem m ∧ w' = { w with mem := m } ∨
        ∃ b, b.size = bytes ∧ Hands R (w.real.erase p) r b ∧ Untouched R (w.real.erase p) w.mem m ∧
          (∀ i < min old.size bytes, m (r + i) = w.mem (p + i)) ∧
          w' = { w with mem := m, real := (w.real.erase p).insert r b })
  | .realFree p, w, _, w' =>
    ∃ m, Untouched R (w.real.erase p) w.mem m ∧
      w' = { w with mem := m, real := w.real.erase p }
  | .realMsize p, w, r, w' => ∃ b, w.real.lookup p = some b ∧ r = b.msize ∧ w' = w
  | .memset p bytes, w, _, w' => w' = { w with mem := blit w.mem p (List.replicate bytes 0) }
  | .memcpy dst src bytes, w, _, w' =>
    w' = { w with mem := blit w.mem dst (window w.mem src bytes) }
  | .store addr v, w, _, w' => w' = { w with mem := Function.update w.mem addr v }

def HookWorld.Within (w : HookWorld) (p n : ℕ) : Prop :=
  ∃ b, w.blocks p = some b ∧ n ≤ b.usable

def HookWorld.IssuedBy (w : HookWorld) (owner : Owner) (p : ℕ) : Prop :=
  ∃ b, w.blocks p = some b ∧ b.owner = owner

/-- The effects that are in order: an allocator is given only blocks that it has issued and that
are still live, and bytes are written and copied only inside of live blocks. -/
def HookOp.InOrder : HookOp → HookWorld → Prop
  | .arenaAllocate .., w => w.arena.isSome
  | .arenaDeallocate p, w | .arenaBlockSize p, w => w.IssuedBy .arena p
  | .realFree p, w => p = 0 ∨ w.IssuedBy .crt p
  | .realRealloc p _, w | .realMsize p, w => w.IssuedBy .crt p
  | .memset p bytes, w => w.Within p bytes
  | .memcpy dst src bytes, w => dst ≠ src ∧ w.Within dst bytes ∧ w.Within src bytes
  | .store addr _, w => ∃ p b, w.blocks p = some b ∧ p ≤ addr ∧ addr < p + b.usable
  | .shouldPassThrough, _ | .ensureInitialized, _ | .arenaOwns _, _ | .realMalloc _, _
  | .realCalloc .., _ => True

/-- The pointers that a program may pass: null or its live blocks. -/
def HookCall.Valid (w : HookWorld) : HookCall → Prop
  | .malloc _ | .calloc .. => True
  | .realloc p _ | .free p => p = 0 ∨ ∃ b, w.blocks p = some b
  | .msize p => ∃ b, w.blocks p = some b
  | .store addr _ => ∃ p b, w.blocks p = some b ∧ p ≤ addr ∧ addr < p + b.usable

end MemInfo
