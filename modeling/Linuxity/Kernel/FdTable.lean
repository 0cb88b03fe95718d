import Linuxity.Kernel.Mounts

/-!
# Kernel.FdTable — what each guest fd number was opened on (`kernel/file_namespace.hpp`)

Per process, an fd number may have a recorded guest path and a recorded directory stream.  The
two are separate maps, and each of the operations below says what it does to both.
-/

namespace Linuxity.Kernel

open Posix

structure DirStream where
  entries : List VirtualDirent
  pos : Nat := 0
  /-- The guest directory whose listing is built at the first read; empty once built. -/
  lazy : Str := []
  byteOff : Nat := 0
  deriving DecidableEq

structure FdTable where
  paths : Int → Option Str := fun _ => none
  dirs : Int → Option DirStream := fun _ => none

namespace FdTable

def bindFd (t : FdTable) (fd : Int) (abs : Str) : FdTable :=
  { t with paths := Function.update t.paths fd (some abs) }

def unbindFd (t : FdTable) (fd : Int) : FdTable :=
  { t with paths := Function.update t.paths fd none, dirs := Function.update t.dirs fd none }

/-- Only what `src` has is copied: an older path or stream of `dst` stays where `src` has none. -/
def mirrorFd (t : FdTable) (src dst : Int) : FdTable :=
  if src = dst then t
  else
    { t with
      paths := match t.paths src with
        | none => t.paths
        | some p => Function.update t.paths dst (some p)
      dirs := match t.dirs src with
        | none => t.dirs
        | some d => Function.update t.dirs dst (some { entries := d.entries, lazy := d.lazy }) }

def pathOfFd (t : FdTable) (fd : Int) : Str := (t.paths fd).getD []

def bindDir (t : FdTable) (fd : Int) (entries : List VirtualDirent) : FdTable :=
  { t with dirs := Function.update t.dirs fd (some { entries := entries }) }

def bindLazyDir (t : FdTable) (fd : Int) (abs : Str) : FdTable :=
  { t with dirs := Function.update t.dirs fd (some { entries := [], lazy := abs }) }

end FdTable

end Linuxity.Kernel
