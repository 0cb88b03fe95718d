import Linuxity.Posix.Path

/-!
# Kernel.MetaStore — recorded modes and owners (`kernel/meta_store.hpp`)

A record overlays the host's mode, owner or type of one guest path.  Each field counts only
when its flag is set.
-/

namespace Linuxity.Kernel

open Posix

structure MetaRecord where
  mode : Nat := 0
  uid : Nat := 0
  gid : Nat := 0
  nlink : Nat := 0
  hasMode : Bool := false
  hasUid : Bool := false
  hasGid : Bool := false
  hasNlink : Bool := false
  hasFifo : Bool := false
  deriving DecidableEq

/-- Nothing differs from what the guest sees without a record. -/
def MetaRecord.isRedundant (r : MetaRecord) : Bool :=
  (!r.hasUid || r.uid == 0) && (!r.hasGid || r.gid == 0) && !r.hasMode && !r.hasNlink && !r.hasFifo

structure MetaStore where
  table : Str → Option MetaRecord := fun _ => none

/-- `0xffffffff`: leave this id as it is. -/
def keepId : Nat := 0xffffffff

namespace MetaStore

variable (s : MetaStore) (path : Str)

def put (r : Option MetaRecord) : MetaStore :=
  { table := Function.update s.table path r }

/-- `hostMode`, when given, is what the host has already: a record is kept only for a difference. -/
def setMode (mode : Nat) (hostMode : Option Nat) : MetaStore :=
  if hostMode.any (fun hm => hm &&& 0o7777 == mode &&& 0o7777) then
    match s.table path with
    | none => s
    | some r =>
      let r := { r with hasMode := false }
      s.put path (if r.isRedundant then none else some r)
  else
    s.put path (some { (s.table path).getD {} with mode := mode &&& 0o7777, hasMode := true })

def setOwner (uid gid : Nat) : MetaStore :=
  if (s.table path).isNone ∧ (uid = 0 ∨ uid = keepId) ∧ (gid = 0 ∨ gid = keepId) then s
  else
    let r := (s.table path).getD {}
    let r := if uid ≠ keepId then { r with uid := uid, hasUid := true } else r
    let r := if gid ≠ keepId then { r with gid := gid, hasGid := true } else r
    s.put path (if r.isRedundant then none else some r)

def setFifo : MetaStore :=
  s.put path (some { (s.table path).getD {} with hasFifo := true })

def isFifo : Bool := (s.table path).any (·.hasFifo)

def rename (src dst : Str) : MetaStore :=
  match s.table src with
  | none => s.put dst none
  | some r => (s.put src none).put dst (some r)

def forget : MetaStore := s.put path none

end MetaStore

end Linuxity.Kernel
