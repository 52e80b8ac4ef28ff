/-
This file gives the page-table code and the system call `sbrk`. A page-table page holds one entry in each word,
and a pointer to an entry is its page and its index. A loop over addresses has a bound that `walk` cuts off at
`MAXVA`.
-/

import Xv6.Kernel.Kalloc

namespace Xv6

abbrev Pte := Uint64

abbrev pteV : Pte := 1
abbrev pteR : Pte := 2
abbrev pteW : Pte := 4
abbrev pteX : Pte := 8
abbrev pteU : Pte := 16

/-- The entry has none of the given bits. -/
abbrev lacks (pte bits : Pte) : Prop := pte &&& bits = 0

def pa2pte (page : Page) : Pte := page.setWidth 64 <<< 10

def pte2pa (pte : Pte) : Page := (pte >>> 10).setWidth 52

def pteFlags (pte : Pte) : Pte := pte &&& 0x3FF

/-- The index that a virtual address selects at one level. -/
def px (level : Nat) (va : Uint64) : WordIndex := Fin.ofNat 512 (va.toNat >>> (12 + 9 * level))

def pgroundup (a : Uint64) : Uint64 := (a + (pgsize - 1)) &&& ~~~(pgsize - 1)

def pgrounddown (a : Uint64) : Uint64 := a &&& ~~~(pgsize - 1)

abbrev maxva : Uint64 := 1 <<< 38

/-- No loop of the page-table code visits more pages below `MAXVA`. -/
abbrev pageBound : Nat := 2 ^ 26 + 1

/-- The loop of `walk` over the levels. A new page-table page is zeroed. -/
def walkFrom (va : Uint64) (alloc : Bool) : Nat → Page → Ram → Option (Page × WordIndex) × Ram
  | 0, table, ram => (some (table, px 0 va), ram)
  | level + 1, table, ram =>
      let pte := ram.word table (px (level + 1) va)
      if lacks pte pteV then
        if alloc then
          match kalloc ram with
          | (none, ram) => (none, ram)
          | (some child, ram) =>
              walkFrom va alloc level child
                ((ram.fill child 0).setWord table (px (level + 1) va) (pa2pte child ||| pteV))
        else (none, ram)
      else walkFrom va alloc level (pte2pa pte) ram

def walk (pagetable : Page) (va : Uint64) (alloc : Bool) (ram : Ram) :
    Except Panic (Option (Page × WordIndex) × Ram) :=
  if maxva ≤ va then .error .walk else .ok (walkFrom va alloc 2 pagetable ram)

/-- `walkaddr` returns the page of a user address. Address zero stands for a failure. -/
def walkaddr (pagetable : Page) (va : Uint64) (ram : Ram) : Option Page :=
  if maxva ≤ va then none
  else match (walkFrom va false 2 pagetable ram).1 with
    | none => none
    | some (table, index) =>
        let pte := ram.word table index
        if lacks pte pteV ∨ lacks pte pteU ∨ pte2pa pte = 0 then none else some (pte2pa pte)

/-- The loop of `mappages`. The result is false when a page-table page could not be allocated. -/
def mapLoop (pagetable : Page) (last : Uint64) (perm : Pte) :
    Nat → Uint64 → Page → Ram → Except Panic (Bool × Ram)
  | 0, _, _, _ => .error .diverged
  | bound + 1, a, pa, ram => do
      let (found, ram) ← walk pagetable a true ram
      match found with
      | none => return (false, ram)
      | some (table, index) =>
          if lacks (ram.word table index) pteV then
            let ram := ram.setWord table index (pa2pte pa ||| perm ||| pteV)
            if a = last then return (true, ram)
            else mapLoop pagetable last perm bound (a + pgsize) (pa + 1) ram
          else .error .mappagesRemap

def mappages (pagetable : Page) (va size : Uint64) (pa : Page) (perm : Pte) (ram : Ram) :
    Except Panic (Bool × Ram) :=
  if size = 0 then .error .mappagesSize
  else mapLoop pagetable (pgrounddown (va + size - 1)) perm pageBound (pgrounddown va) pa ram

/-- The loop of `uvmunmap`. -/
def unmapLoop (layout : Layout) (pagetable : Page) (stop : Uint64) (doFree : Bool) :
    Nat → Uint64 → Ram → Except Panic Ram
  | 0, _, _ => .error .diverged
  | bound + 1, a, ram =>
      if a < stop then do
        let (found, ram) ← walk pagetable a false ram
        match found with
        | none => .error .uvmunmapWalk
        | some (table, index) =>
            let pte := ram.word table index
            if lacks pte pteV then .error .uvmunmapNotMapped
            else if pteFlags pte = pteV then .error .uvmunmapNotALeaf
            else do
              let ram ← if doFree then kfree layout (pte2pa pte) ram else pure ram
              unmapLoop layout pagetable stop doFree bound (a + pgsize) (ram.setWord table index 0)
      else return ram

def uvmunmap (layout : Layout) (pagetable : Page) (va npages : Uint64) (doFree : Bool) (ram : Ram) :
    Except Panic Ram :=
  if va % pgsize ≠ 0 then .error .uvmunmapNotAligned
  else unmapLoop layout pagetable (va + npages * pgsize) doFree pageBound va ram

/-- `uvmdealloc` computes the number of pages as an `int`. -/
def uvmdealloc (layout : Layout) (pagetable : Page) (oldsz newsz : Uint64) (ram : Ram) :
    Except Panic (Uint64 × Ram) :=
  if oldsz ≤ newsz then return (oldsz, ram)
  else if pgroundup newsz < pgroundup oldsz then do
    let npages : CInt := ((pgroundup oldsz - pgroundup newsz) / pgsize).setWidth 32
    let ram ← uvmunmap layout pagetable (pgroundup newsz) (npages.signExtend 64) true ram
    return (newsz, ram)
  else return (newsz, ram)

/-- The loop of `uvmalloc`. The result is zero when it ran out of memory. -/
def allocLoop (layout : Layout) (pagetable : Page) (oldsz newsz : Uint64) (xperm : Pte) :
    Nat → Uint64 → Ram → Except Panic (Uint64 × Ram)
  | 0, _, _ => .error .diverged
  | bound + 1, a, ram =>
      if a < newsz then
        match kalloc ram with
        | (none, ram) => do
            let (_, ram) ← uvmdealloc layout pagetable a oldsz ram
            return (0, ram)
        | (some mem, ram) => do
            let (mapped, ram) ← mappages pagetable a pgsize mem (pteR ||| pteU ||| xperm) (ram.fill mem 0)
            if mapped then allocLoop layout pagetable oldsz newsz xperm bound (a + pgsize) ram
            else do
              let ram ← kfree layout mem ram
              let (_, ram) ← uvmdealloc layout pagetable a oldsz ram
              return (0, ram)
      else return (newsz, ram)

def uvmalloc (layout : Layout) (pagetable : Page) (oldsz newsz : Uint64) (xperm : Pte) (ram : Ram) :
    Except Panic (Uint64 × Ram) :=
  if newsz < oldsz then return (oldsz, ram)
  else allocLoop layout pagetable (pgroundup oldsz) newsz xperm pageBound (pgroundup oldsz) ram

/-- The loop of `copyout`. Each round copies the rest of one page. -/
def copyoutLoop (pagetable : Page) : Nat → Uint64 → List Byte → Ram → Bool × Ram
  | _, _, [], ram => (true, ram)
  | 0, _, _ :: _, ram => (false, ram)
  | rounds + 1, dstva, src, ram =>
      let va0 := pgrounddown dstva
      match walkaddr pagetable va0 ram with
      | none => (false, ram)
      | some pa0 =>
          let start := (dstva - va0).toNat
          let n := min (4096 - start) src.length
          copyoutLoop pagetable rounds (va0 + pgsize) (src.drop n) (ram.write pa0 start (src.take n))

/-- `copyout` returns true on success. A failed copy may have written some pages. -/
def copyout (pagetable : Page) (dstva : Uint64) (src : List Byte) (ram : Ram) : Bool × Ram :=
  copyoutLoop pagetable src.length dstva src ram

/-- The loop of `copyin`. -/
def copyinLoop (pagetable : Page) (ram : Ram) : Nat → Uint64 → Nat → Option (List Byte)
  | _, _, 0 => some []
  | 0, _, _ + 1 => none
  | rounds + 1, srcva, len =>
      let va0 := pgrounddown srcva
      (walkaddr pagetable va0 ram).bind fun pa0 =>
        let start := (srcva - va0).toNat
        let n := min (4096 - start) len
        (copyinLoop pagetable ram rounds (va0 + pgsize) (len - n)).map (ram.read pa0 start n ++ ·)

/-- `copyin` returns the bytes that it has copied, or none on an error. -/
def copyin (pagetable : Page) (srcva : Uint64) (len : Nat) (ram : Ram) : Option (List Byte) :=
  copyinLoop pagetable ram len srcva len

/-- The loop of `copyinstr`. -/
def copyinstrLoop (pagetable : Page) (ram : Ram) : Nat → Uint64 → Nat → Option (List Byte)
  | _, _, 0 => none
  | 0, _, _ + 1 => none
  | rounds + 1, srcva, max =>
      let va0 := pgrounddown srcva
      (walkaddr pagetable va0 ram).bind fun pa0 =>
        let start := (srcva - va0).toNat
        let n := min (4096 - start) max
        let bytes := ram.read pa0 start n
        if 0 ∈ bytes then some (bytes.takeWhile (· ≠ 0))
        else (copyinstrLoop pagetable ram rounds (va0 + pgsize) (max - n)).map (bytes ++ ·)

/-- `copyinstr` returns the string without its terminator, or none on an error. -/
def copyinstr (pagetable : Page) (srcva : Uint64) (max : Nat) (ram : Ram) : Option (List Byte) :=
  copyinstrLoop pagetable ram max srcva max

/-- The fields of a process that `growproc` reads, with physical memory. -/
structure UserSpace where
  pagetable : Page
  sz : Uint64
  ram : Ram

/-- `growproc` returns false for -1. -/
def growproc (layout : Layout) (n : CInt) (p : UserSpace) : Except Panic (Bool × UserSpace) :=
  if 0 < n.toInt then do
    let (sz, ram) ← uvmalloc layout p.pagetable p.sz (p.sz + n.signExtend 64) pteW p.ram
    if sz = 0 then return (false, { p with ram := ram })
    else return (true, { p with sz := sz, ram := ram })
  else if n.toInt < 0 then do
    let (sz, ram) ← uvmdealloc layout p.pagetable p.sz (p.sz + n.signExtend 64) p.ram
    return (true, { p with sz := sz, ram := ram })
  else return (true, p)

/-- `sys_sbrk` returns none for -1. -/
def sysSbrk (layout : Layout) (n : CInt) (p : UserSpace) : Except Panic (Option Uint64 × UserSpace) := do
  let addr := p.sz
  let (grown, p) ← growproc layout n p
  return (if grown then some addr else none, p)

end Xv6
