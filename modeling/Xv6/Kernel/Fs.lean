/-
This file gives the constants of the file system and the elements of a path.
-/

import Xv6.Kernel.File
import Xv6.Lib.Program

namespace Xv6

/-- `mkfs` makes this many inodes. -/
abbrev ninodes : Nat := 200

abbrev dirsiz : Nat := 14

/-- The number of an inode. Number zero marks a free directory entry. -/
abbrev Inum := Fin ninodes

abbrev rootino : Inum := 1

/-- A name has at most `dirsiz` bytes and no slash. -/
abbrev Name := List Byte

/-- The bytes of a path up to its end. -/
abbrev Path := List Byte

def tDir : CShort := 1

def tFile : CShort := 2

/-- The entry `.` of a directory. -/
def dot : Name := [46]

/-- The entry `..` of a directory. -/
def dotdot : Name := [46, 46]

/-- The size of a directory entry. -/
abbrev direntSize : Nat := 16

def slash : Byte := 47

/-- `skipelem`: the first element of a path and the rest. -/
def skipelem (path : Path) : Option (Name × Path) :=
  let path := path.dropWhile (· = slash)
  if path = [] then none
  else
    let rest := path.dropWhile (· ≠ slash)
    some ((path.takeWhile (· ≠ slash)).take dirsiz, rest.dropWhile (· = slash))

/-- The results of `skipelem` one after another. -/
def elementsFrom : Nat → Path → List Name
  | 0, _ => []
  | fuel + 1, path =>
      match skipelem path with
      | none => []
      | some (name, rest) => name :: elementsFrom fuel rest

/-- Each element takes at least one byte of the path. -/
def elements (path : Path) : List Name := elementsFrom path.length path

end Xv6
