import MemInfo.WindowsLanSharing.GpuWireProtocol

/-! # The paging wire protocol

The packed header of `PagingWireProtocol.hpp`. A request to read is the header alone, and a request
to write has the bytes of its pages behind it. Answers have no header.
-/

namespace MemInfo.WindowsLanSharing

open Lib

/-- `PAGING_MAGIC`. -/
def pagingMagic : UInt32 := 0x52414D31

inductive PagingOpcode where
  | readCluster
  | writeDiff
  deriving DecidableEq, Repr

def PagingOpcode.code : PagingOpcode → UInt8
  | .readCluster => 1
  | .writeDiff => 2

/-- `CLUSTER_SIZE`. -/
def clusterSize : ℕ := 64 * 1024

/-- `PAGE_SIZE`. -/
def pageSize : ℕ := 4096

/-- `PAGES_PER_CLUSTER`. -/
def pagesPerCluster : ℕ := clusterSize / pageSize

theorem mul_pageSize_le {pageCount : ℕ} (h : pageCount ≤ pagesPerCluster) :
    pageCount * pageSize ≤ clusterSize := by
  have hcluster : pagesPerCluster * pageSize = clusterSize := by decide
  rw [← hcluster]
  exact Nat.mul_le_mul_right pageSize h

structure PagingHeader where
  magic : UInt32
  opcode : UInt8
  reserved : UInt8 × UInt8 × UInt8
  address : UInt64
  pageCount : UInt32
  payloadLen : UInt32
  deriving DecidableEq, Repr

/-- `sizeof(PagingHeader)`. -/
def pagingHeaderSize : ℕ := 24

namespace PagingHeader

def bytes (h : PagingHeader) : List Byte :=
  u32 h.magic ++ (u8 h.opcode ++ (u8 h.reserved.1 ++ (u8 h.reserved.2.1 ++ (u8 h.reserved.2.2 ++
    (u64 h.address ++ (u32 h.pageCount ++ u32 h.payloadLen))))))

def ofBytes (s : List Byte) : PagingHeader where
  magic := .ofNat (field 0 4 s)
  opcode := .ofNat (field 4 1 s)
  reserved := (.ofNat (field 5 1 s), .ofNat (field 6 1 s), .ofNat (field 7 1 s))
  address := .ofNat (field 8 8 s)
  pageCount := .ofNat (field 16 4 s)
  payloadLen := .ofNat (field 20 4 s)

@[simp] theorem length_bytes (h : PagingHeader) : h.bytes.length = pagingHeaderSize := by
  simp [bytes, pagingHeaderSize]

@[simp] theorem ofBytes_bytes (h : PagingHeader) : ofBytes h.bytes = h := by
  simp [ofBytes, bytes, field_append]

end PagingHeader

/-- The header that `send_paging_header` puts on the socket. -/
def pagingHeader (opcode : PagingOpcode) (address : UInt64) (pageCount payloadLen : UInt32) :
    PagingHeader :=
  ⟨pagingMagic, opcode.code, (0, 0, 0), address, pageCount, payloadLen⟩

/-- `align_down_cluster`. -/
def alignDownCluster (addr : UInt64) : UInt64 := addr &&& ~~~ UInt64.ofNat (clusterSize - 1)

theorem toNat_alignDownCluster (addr : UInt64) :
    (alignDownCluster addr).toNat = addr.toNat / clusterSize * clusterSize := by
  have hmask : (~~~ UInt64.ofNat (clusterSize - 1)).toNat = sizeMax - (2 ^ 16 - 1) := by decide
  rw [alignDownCluster, UInt64.toNat_and, hmask, and_mask addr.toNat_lt (by decide)]
  rfl

end MemInfo.WindowsLanSharing
