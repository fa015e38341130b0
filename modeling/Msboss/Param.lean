import Mathlib

/-!
# Kernel parameters

The constants of `param.h`, `fs.h` and `mmu.h` that the modelled code reads.
-/

namespace Msboss

/-! ## `param.h` -/

/-- Maximum number of processes. -/
def NPROC : Nat := 64

instance : NeZero NPROC := ⟨by decide⟩

/-- Open files per process. -/
def NOFILE : Nat := 16

/-- Open files per system. -/
def NFILE : Nat := 100

/-- Maximum number of active i-nodes. -/
def NINODE : Nat := 50

/-- Maximum major device number. -/
def NDEV : Nat := 10

/-- The device of the root file system. -/
def ROOTDEV : Nat := 1

/-- Maximum exec arguments. -/
def MAXARG : Nat := 32

/-- Maximum number of blocks any file-system operation writes. -/
def MAXOPBLOCKS : Nat := 10

/-- Maximum number of data blocks in the on-disk log. -/
def LOGSIZE : Nat := MAXOPBLOCKS * 3

/-- Size of the disk block cache. -/
def NBUF : Nat := MAXOPBLOCKS * 3

/-- Number of shared-memory regions, and of slots in a process's tables. -/
def SHM_MAXNUM : Nat := NPROC / 2

/-- Maximum number of mutexes, and of handles of a process. -/
def MUX_MAXNUM : Nat := 10

/-! ## `fs.h` -/

/-- Bytes in a disk block. -/
def BSIZE : Nat := 512

/-- Direct block addresses of an inode. -/
def NDIRECT : Nat := 12

/-- Block addresses in an indirect block. -/
def NINDIRECT : Nat := BSIZE / 4

/-- Blocks in the largest file. -/
def MAXFILE : Nat := NDIRECT + NINDIRECT

/-- Bitmap bits per block. -/
def BPB : Nat := BSIZE * 8

/-- Inodes per block: a `struct dinode` is 64 bytes. -/
def IPB : Nat := BSIZE / 64

/-- Bytes of a name in a directory entry. -/
def DIRSIZ : Nat := 14

/-- The i-number of the root directory. -/
def ROOTINO : Nat := 1

/-! ## `mmu.h` and `memlayout.h` -/

/-- Bytes mapped by a page. -/
def PGSIZE : Nat := 4096

/-- Entries of a page table, and of a page directory. -/
def NPTENTRIES : Nat := 1024

/-- First kernel virtual address. -/
def KERNBASE : Nat := 0x80000000

/-- Start of extended memory. -/
def EXTMEM : Nat := 0x100000

/-- Top physical memory. -/
def PHYSTOP : Nat := 0xE000000

/-- Other devices are at high addresses. -/
def DEVSPACE : Nat := 0xFE000000

end Msboss
