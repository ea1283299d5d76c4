import MemInfo.WindowsLanSharing.PagingServer

/-! # The client of the paging server

`TcpPageFaultBackend` asks for clusters only, which never reach over the end of the pool. All
clients together see a memory if their addresses lie in one window of 8 GiB, and not if they use
addresses that are a multiple of 8 GiB apart. The calls here are those whose transfers succeed.
-/

namespace MemInfo.WindowsLanSharing

open Lib

/-- `page_count` of both calls. -/
def clusterPageCount (size : UInt64) : ℕ :=
  let pageCount := wrap (size.toNat + pageSize - 1) / pageSize % 2 ^ 32
  if pageCount = 0 then 1
  else if pagesPerCluster < pageCount then pagesPerCluster
  else pageCount

/-- `fetch_page_cluster`, as far as the server. -/
def fetchPageCluster (client : ℕ) (addr size : UInt64) : List PagingEvent :=
  PagingServer.request client
    (requestHeader .readCluster (alignDownCluster addr) (clusterPageCount size)) []

/-- `commit_page_diff`, as far as the server. It sends whole pages, whatever the size. -/
def commitPageDiff (client : ℕ) (addr size : UInt64) (src : ℕ → Byte) : List PagingEvent :=
  PagingServer.request client
    (requestHeader .writeDiff (alignDownCluster addr) (clusterPageCount size))
    (window src 0 (clusterPageCount size * pageSize))

theorem clusterPageCount_pos (size : UInt64) : 0 < clusterPageCount size := by
  unfold clusterPageCount
  dsimp only
  split_ifs with hzero hlarge
  · exact Nat.one_pos
  · decide
  · exact Nat.pos_of_ne_zero hzero

theorem clusterPageCount_le (size : UInt64) : clusterPageCount size ≤ pagesPerCluster := by
  unfold clusterPageCount
  dsimp only
  split_ifs with hzero hlarge
  · decide
  · exact Nat.le_refl _
  · exact Nat.not_lt.1 hlarge

/-- The ranges that clients ask for whose addresses lie in one window. -/
def InWindow (n : ℕ) (address : UInt64) (pageCount : ℕ) : Prop :=
  ∃ addr size, address = alignDownCluster addr ∧ pageCount = clusterPageCount size ∧
    addr.toNat / poolSize = n

theorem cluster_in_window (addr : UInt64) :
    (alignDownCluster addr).toNat / poolSize = addr.toNat / poolSize ∧
      (alignDownCluster addr).toNat % poolSize + clusterSize ≤ poolSize := by
  rw [toNat_alignDownCluster]
  unfold poolSize clusterSize
  omega

theorem placed_inWindow (n : ℕ) : Placed (InWindow n) := by
  have hwindow (a : ℕ) (ha : Reaches (InWindow n) a) : a / poolSize = n := by
    obtain ⟨address, pageCount, ⟨addr, size, rfl, rfl, rfl⟩, hle, hlow, hhigh⟩ := ha
    obtain ⟨hdiv, hmod⟩ := cluster_in_window addr
    have hcluster := mul_pageSize_le hle
    rw [← hdiv]
    unfold poolSize at *
    omega
  constructor
  · rintro address pageCount ⟨addr, size, rfl, rfl, rfl⟩ hpos hle
    exact Nat.le_trans (Nat.add_le_add_left (mul_pageSize_le hle) _) (cluster_in_window addr).2
  · intro a a' ha ha' hplace
    rw [← Nat.div_add_mod a poolSize, ← Nat.div_add_mod a' poolSize, hwindow a ha, hwindow a' ha',
      hplace]

namespace PagingServer

variable {n client : ℕ} {s : PagingServer} {addr : UInt64}

theorem placed_cluster (haddr : addr.toNat / poolSize = n) (size : UInt64) :
    InWindow n (alignDownCluster addr) (clusterPageCount size) ∧
      (alignDownCluster addr).toNat % poolSize + clusterPageCount size * pageSize ≤ poolSize := by
  have hallowed : InWindow n (alignDownCluster addr) (clusterPageCount size) :=
    ⟨addr, size, rfl, rfl, haddr⟩
  exact ⟨hallowed, (placed_inWindow n).inside _ _ hallowed (clusterPageCount_pos size)
    (clusterPageCount_le size)⟩

theorem fetchPageCluster_latest (h : s.Agrees (InWindow n)) (hidle : s.Idle client)
    (haddr : addr.toNat / poolSize = n) (size : UInt64) :
    ∃ s', run s (fetchPageCluster client addr size) = some s' ∧
      (s'.clients client).output = (s.clients client).output ++
        window (latest s.history) (alignDownCluster addr).toNat
          (clusterPageCount size * pageSize) := by
  have hpos := clusterPageCount_pos size
  have hle := clusterPageCount_le size
  obtain ⟨hallowed, hin⟩ := placed_cluster haddr size
  obtain ⟨s', hrun, hserved⟩ := run_request [] hidle
    (accepted_requestHeader .readCluster (alignDownCluster addr) hpos hle) rfl
  have houtput := hserved.output
  rw [accessPool_read hle hin, PoolEffect.response,
    h.window_eq (placed_inWindow n) hallowed hpos hle] at houtput
  exact ⟨s', hrun, houtput⟩

/-- What a client commits, any client fetches next, whatever the clients have done before in the
same window. -/
theorem fetch_after_commit {events : List PagingEvent} (hrun : run {} events = some s)
    (hwithin : s.Within (InWindow n)) (hidle : ∀ other, s.Idle other)
    (haddr : addr.toNat / poolSize = n) (size : UInt64) (src : ℕ → Byte) (client' : ℕ) :
    ∃ s', run s (commitPageDiff client addr size src ++ fetchPageCluster client' addr size) =
        some s' ∧
      (s'.clients client').output =
        (s.clients client').output ++ window src 0 (clusterPageCount size * pageSize) := by
  have hpos := clusterPageCount_pos size
  have hle := clusterPageCount_le size
  obtain ⟨hallowed, hin⟩ := placed_cluster haddr size
  have hlength : (window src 0 (clusterPageCount size * pageSize)).length =
      clusterPageCount size * pageSize := length_window ..
  obtain ⟨u, hcommit, hserved⟩ := run_request (window src 0 (clusterPageCount size * pageSize))
    (hidle client) (accepted_requestHeader .writeDiff (alignDownCluster addr) hpos hle)
    (hlength.trans (toNat_payloadLen hle).symm)
  obtain ⟨-, hhistory, hsilent, hothers, hidle'⟩ := hserved
  rw [accessPool_write hle hin] at hhistory hsilent hidle'
  rw [toNat_pageCount hle] at hhistory
  have hwithin' : u.Within (InWindow n) := by
    rw [Within, hhistory, List.forall_mem_cons]
    exact ⟨hallowed, hwithin⟩
  have hagrees : u.Agrees (InWindow n) :=
    (agrees_start _).run (placed_inWindow n) ((foldlM_append_of_some hrun).trans hcommit) hwithin'
  obtain ⟨s', hfetch, houtput⟩ := fetchPageCluster_latest hagrees
    (hidle' PoolEffect.noConfusion client' (hidle client')) haddr size
  -- a commit is not answered
  have hkept : (u.clients client').output = (s.clients client').output := by
    by_cases heq : client' = client
    · rw [heq, hsilent]
      exact List.append_nil _
    · rw [hothers client' heq]
  have hlatest : latest u.history = blit (latest s.history) (alignDownCluster addr).toNat
      (window src 0 (clusterPageCount size * pageSize)) := by
    rw [hhistory]
    rfl
  have hblit := window_blit_self (latest s.history) (alignDownCluster addr).toNat
    (window src 0 (clusterPageCount size * pageSize))
  rw [hlength] at hblit
  rw [hlatest, hblit, hkept] at houtput
  exact ⟨s', (foldlM_append_of_some hcommit).trans hfetch, houtput⟩

end PagingServer

end MemInfo.WindowsLanSharing
