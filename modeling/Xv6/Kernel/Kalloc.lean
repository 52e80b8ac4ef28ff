/-
This file gives physical memory and its page allocator. A physical page is named by its page number, and
memory is a table of 64-bit words for each page.
-/

import Xv6.Kernel.Param

namespace Xv6

abbrev Page := BitVec 52

/-- The index of a word in its page. -/
abbrev WordIndex := Fin 512

/-- The places at which the kernel panics. A loop that goes on beyond every bound has diverged. -/
inductive Panic where
  | kfree
  | walk
  | mappagesSize
  | mappagesRemap
  | uvmunmapNotAligned
  | uvmunmapWalk
  | uvmunmapNotMapped
  | uvmunmapNotALeaf
  | diverged
  deriving DecidableEq

/-- The page number of `PHYSTOP`. -/
abbrev phystop : Nat := 0x88000

/-- The address that the linker chooses: the first page after the kernel. -/
structure Layout where
  kernelEnd : Nat

/-- The free list and the contents of memory. The links of the free list are left out of the words. -/
structure Ram where
  freelist : List Page
  word : Page → WordIndex → Uint64

namespace Ram

variable (ram : Ram)

/-- `memset` on a whole page. -/
def fill (page : Page) (value : Uint64) : Ram :=
  { ram with word := fun p i => if p = page then value else ram.word p i }

/-- A store of one word. -/
def setWord (page : Page) (index : WordIndex) (value : Uint64) : Ram :=
  { ram with word := fun p i => if p = page ∧ i = index then value else ram.word p i }

end Ram

/-- A byte of a word, counted from its low end. -/
def byteOf (word : Uint64) (j : Fin 8) : Byte := BitVec.ofNat 8 (word.toNat / 256 ^ j.val)

/-- The word with the given bytes. -/
def joinBytes (bytes : Fin 8 → Byte) : Uint64 :=
  BitVec.ofNat 64 ((bytes 0).toNat + 256 * (bytes 1).toNat + 256 ^ 2 * (bytes 2).toNat +
    256 ^ 3 * (bytes 3).toNat + 256 ^ 4 * (bytes 4).toNat + 256 ^ 5 * (bytes 5).toNat +
    256 ^ 6 * (bytes 6).toNat + 256 ^ 7 * (bytes 7).toNat)

namespace Ram

variable (ram : Ram)

/-- The byte of a page at an offset. -/
def byte (page : Page) (offset : Fin 4096) : Byte :=
  byteOf (ram.word page ⟨offset.val / 8, by omega⟩) ⟨offset.val % 8, by omega⟩

/-- `memmove` of some bytes into a page. -/
def write (page : Page) (offset : Nat) (bytes : List Byte) : Ram :=
  { ram with word := fun p i =>
      if p = page then joinBytes fun j =>
        if offset ≤ 8 * i.val + j.val then
          (bytes[8 * i.val + j.val - offset]?).getD (byteOf (ram.word p i) j)
        else byteOf (ram.word p i) j
      else ram.word p i }

/-- Some bytes of a page. -/
def read (page : Page) (offset count : Nat) : List Byte :=
  (List.range count).map fun k => ram.byte page (Fin.ofNat 4096 (offset + k))

end Ram

/-- `kalloc` takes the first page of the free list and fills it with junk. -/
def kalloc (ram : Ram) : Option Page × Ram :=
  match ram.freelist with
  | [] => (none, ram)
  | page :: rest => (some page, { ram with freelist := rest }.fill page 0x0505050505050505)

/-- `kfree` fills a page with junk and puts it on the free list. -/
def kfree (layout : Layout) (page : Page) (ram : Ram) : Except Panic Ram :=
  if page.toNat < layout.kernelEnd ∨ phystop ≤ page.toNat then .error .kfree
  else
    let filled := ram.fill page 0x0101010101010101
    .ok { filled with freelist := page :: filled.freelist }

end Xv6
