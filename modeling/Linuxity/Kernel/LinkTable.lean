import Linuxity.Posix.Path
import Mathlib.Data.List.AList

/-!
# Kernel.LinkTable — emulated hard links (`kernel/link_table.hpp`)

Where the host has no `link(2)`, an alias is a placeholder file whose data lives at its backing.
Both are host paths.  The table keeps each alias twice: with its backing, and in the list of the
backing's names.
-/

namespace Linuxity.Kernel

open Posix

structure LinkTable where
  aliases : AList (fun _ : Str => Str) := ∅
  names : AList (fun _ : Str => List Str) := ∅

namespace LinkTable

variable (t : LinkTable)

def backingOf (p : Str) : Option Str := t.aliases.lookup p

def resolve (p : Str) : Str := (t.backingOf p).getD p

def hasAliases (backing : Str) : Bool := !((t.names.lookup backing).getD []).isEmpty

def add (a backing : Str) : LinkTable where
  aliases := t.aliases.insert a backing
  names := t.names.insert backing ((t.names.lookup backing).getD [] ++ [a])

def eraseName (names : AList (fun _ : Str => List Str)) (backing a : Str) :
    AList (fun _ : Str => List Str) :=
  match names.lookup backing with
  | none => names
  | some v =>
    let v := v.filter (· ≠ a)
    if v = [] then names.erase backing else names.insert backing v

def drop (a : Str) : LinkTable :=
  match t.aliases.lookup a with
  | none => t
  | some backing => { aliases := t.aliases.erase a, names := eraseName t.names backing a }

/-- The first alias becomes the backing of the others. -/
def promote (backing : Str) : Option (Str × LinkTable) :=
  match t.names.lookup backing with
  | none => none
  | some [] => none
  | some (heir :: rest) =>
    let t := { aliases := t.aliases.erase heir, names := t.names.erase backing }
    some (heir, rest.foldl (fun t a => t.add a heir) t)

/-- `p` is `q` or lies below it. -/
def under (q p : Str) : Bool := p == q || (q ++ ['/']).isPrefixOf p

def movedTo (src dst p : Str) : Option Str :=
  if under src p then some (dst ++ p.drop src.length) else none

def renamePrefix (src dst : Str) : LinkTable :=
  let moved := t.aliases.entries.filter fun e => under src e.1 || under src e.2
  let t := moved.foldl (fun t e =>
    { aliases := t.aliases.erase e.1, names := eraseName t.names e.2 e.1 : LinkTable }) t
  moved.foldl (fun t e => t.add ((movedTo src dst e.1).getD e.1) ((movedTo src dst e.2).getD e.2)) t

def touches (p : Str) : Bool := t.aliases.entries.any fun e => under p e.1 || under p e.2

end LinkTable

end Linuxity.Kernel
