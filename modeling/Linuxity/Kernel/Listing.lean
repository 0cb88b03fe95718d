import Linuxity.Kernel.Classify

/-!
# Kernel.Listing — what a directory of an overlay shows (`kernel/file_namespace.hpp`)

A listing is the union of both layers, the upper one first, without the journals and without the
names of the lower layer that a whiteout hides.
-/

namespace Linuxity.Kernel

open Posix Wire

def dirLoc (h : Host) (p : Str) : Option Loc :=
  match h.resolve p true with
  | .ok (.found l) => some l
  | .ok (.free _ _) => none
  | .error .enametoolong =>
    match atLongParent h p with
    | .error _ => none
    | .ok dfd =>
      match h.walk true maxLinks dfd [leafOf p] with
      | .ok (.found l) => some l
      | _ => none
  | .error _ => none

def entriesAt (h : Host) (l : Loc) : List (Str × Node) :=
  h.dom.filterMap fun q =>
    match q.getLast? with
    | none => none
    | some c => if q.dropLast = l then (h.node q).map fun n => (c, n) else none

def dtypeOf (n : Node) : DType :=
  match n.kind with
  | .link _ => .symlink
  | .dir => .dir
  | _ => .regular

/-- A name that is already there keeps its entry. -/
def mergeEntry (seen : List VirtualDirent) (e : Str × Node) : List VirtualDirent :=
  if seen.any (·.name == e.1) then seen
  else seen ++ [{ name := e.1, type := dtypeOf e.2, ino := e.2.ino }]

/-- `none` where the directory cannot be opened. -/
def mergeDir (h : Host) (p : Str) (seen : List VirtualDirent) : Option (List VirtualDirent) :=
  match dirLoc h p with
  | none => none
  | some l =>
    match h.node l with
    | none => none
    | some d => if d.isDir && d.readable then some ((entriesAt h l).foldl mergeEntry seen) else none

def journalLeaves : List Str := [".linuxity-meta", ".linuxity-links", ".linuxity-whiteout"]

def childPath (dir name : Str) : Str :=
  let dir := if dir ≠ slash ∧ dir.getLast? = some '/' then dir.dropLast else dir
  (if dir = slash then slash else dir ++ slash) ++ name

/-- The entry is hidden: by its name, or by a whiteout that no new upper entry replaces. -/
def hiddenEntry (w : World) (m : Mount) (abs name : Str) : Bool :=
  journalLeaves.contains name || w.isWhiteout (childPath abs name) &&
    !hostExists w.host (m.up abs ++ '/' :: name)

def overlayDirUnion (w : World) (abs : Str) : List VirtualDirent :=
  match deepest w.mounts abs with
  | none => []
  | some m =>
    if m.producer.isSome ∨ m.upper = [] then []
    else
      let ups := mergeDir w.host (m.up abs) []
      let all := mergeDir w.host (m.lo abs) (ups.getD [])
      if ups.isNone ∧ all.isNone then []
      else
        { name := dot, type := .dir } :: { name := dotdot, type := .dir } ::
          (all.getD (ups.getD [])).filter fun e => !hiddenEntry w m abs e.name

/-- The stream of a descriptor, whose listing is built at the first use; a stream without entries is
dropped. -/
def dirStream (fd : Int) (w : World) : Option DirStream × World :=
  match w.fds.dirs fd with
  | none => (none, w)
  | some ds =>
    if ds.lazy = [] then (some ds, w)
    else
      let entries := overlayDirUnion w ds.lazy
      let ds' := if entries = [] then none else some { ds with entries := entries, lazy := [] }
      (ds', w.setFds { w.fds with dirs := Function.update w.fds.dirs fd ds' })

end Linuxity.Kernel
