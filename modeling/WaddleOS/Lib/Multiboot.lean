import WaddleOS.Base.Memory

/-!
# `lib/multiboot2.h`: tags in memory

The two sides of the handover read and write the same structures: a tag opens
with its type and size, a memory map tag goes on with 24-byte entries.
-/

namespace WaddleOS

def multibootReturnInfoAddr : Nat := 0xC000

def multibootTagTypeBasicMeminfo : Nat := 4

def multibootTagTypeMmap : Nat := 6

/-- `tag->type` -/
def tagType (m : Mem) (tag : Nat) : Nat := load m tag 4

/-- `tag->size` -/
def tagSize (m : Mem) (tag : Nat) : Nat := load m (tag + 4) 4

/-- `struct multiboot_mmap_entry` -/
structure MultibootMmapEntry where
  addr : UInt64
  len : UInt64
  type : UInt32
  zero : UInt32
  deriving DecidableEq, Repr

/-- The entry `e` stands at `a`. -/
structure EntryAt (m : Mem) (a : Nat) (e : MultibootMmapEntry) : Prop where
  addr : load m a 8 = e.addr.toNat
  len : load m (a + 8) 8 = e.len.toNat
  type : load m (a + 16) 4 = e.type.toNat
  zero : load m (a + 20) 4 = e.zero.toNat

/-- A whole `struct multiboot_tag_mmap` for the entries `es` stands at `t`. -/
structure MmapTag (m : Mem) (t : Nat) (es : List MultibootMmapEntry) : Prop where
  type : tagType m t = multibootTagTypeMmap
  size : tagSize m t = 16 + 24 * es.length
  entrySize : load m (t + 8) 4 = 24
  entries : ∀ i e, es[i]? = some e → EntryAt m (t + 16 + 24 * i) e

end WaddleOS
