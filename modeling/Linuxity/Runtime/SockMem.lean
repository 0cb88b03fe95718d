import Linuxity.Abi.Sockaddr
import Linuxity.Runtime.Transparent

/-!
# Runtime.SockMem — the guest's memory over a `bind` or `connect` (`ptrace_trap.hpp`)

The translated path is written over the path in the guest's own `sockaddr_un`, and nothing is put
back when the call returns.
-/

namespace Linuxity.Runtime

open Logic Posix Abi Kernel Transparent

/-- The memory of a stopped task as the dispatcher reads it. -/
def Transparent.Stop.view (t : Stop) : GuestMem where
  byte a := if t.pages.readable (a / 4096) then some (t.mem a) else none
  null := if_neg fun h => (t.pages.user _ h).1 rfl

def Transparent.Stop.frame (t : Stop) : Regs := ⟨t.regs .nr, t.arg⟩

/-- `rewrite_sockaddr`: the memory, whether the call then runs or is refused. -/
def rewriteSockaddr (k : Replies) (t : Stop) (pathAddr : ℕ) (hostPath : Str) : Mem :=
  (pokeOwn k (pathAddr % addrMax) hostPath t.mem).2

/-- The memory when the call has returned. The kernel reads the address and does not write to it. -/
def sockaddrMem (k : Replies) (w : World) (t : Stop) (forBind : Bool) : Mem :=
  match (doSockaddrUn w t.view t.frame forBind).1 with
  | .sockRewrite pathAddr hostPath _ _ => rewriteSockaddr k t pathAddr hostPath
  | _ => t.mem

/-- The path that takes the place of the guest's, if any does. -/
def translated (w : World) (mem : GuestMem) (r : Regs) (forBind : Bool) : Option Str :=
  match sockGuestPath w mem r with
  | some (some g) =>
    if isHostSidePath w.mounts g then none
    else
      match w.socketNs with
      | .abstractNs => some (nul :: abstractNameFor g w.instanceId)
      | .filesystem =>
        if sockHost w forBind g = [] ∨ sunPathMax < (sockHost w forBind g).length + 1 then none
        else some (sockHost w forBind g)
  | _ => none

/-- The bytes of a path and its NUL that the kernel lets the tracer write at `a`. -/
def pathBytes (k : Replies) (a : ℕ) (s : Str) : List UInt8 :=
  spliced (fun a => k.prepeek a && k.poke a) false k.toFaults a (bytesOf s ++ [0])

section Memory

variable {k : Replies} {w : World} {t : Stop} {forBind : Bool} {mem : GuestMem} {r : Regs}

/-- The decision of the dispatcher, by the translated path. -/
theorem doSockaddrUn_cases :
    (∃ s n, translated w mem r forBind = some s ∧
        (doSockaddrUn w mem r forBind).1 = .sockRewrite (r.arg 1 + 2) s 2 n) ∨
      translated w mem r forBind = none ∧
      ∀ a s l n, (doSockaddrUn w mem r forBind).1 ≠ .sockRewrite a s l n := by
  rw [doSockaddrUn, translated]
  rcases sockGuestPath w mem r with _ | _ | g
  · exact .inr ⟨rfl, nofun⟩
  · exact .inr ⟨rfl, nofun⟩
  dsimp only
  by_cases hside : isHostSidePath w.mounts g
  · rw [if_pos hside, if_pos hside]
    exact .inr ⟨rfl, nofun⟩
  rw [if_neg hside, if_neg hside]
  cases w.socketNs with
  | abstractNs => exact .inl ⟨_, _, rfl, (sockAbstract_rewrites _).1⟩
  | filesystem =>
    rcases @sockFilesystem_cases w forBind g (r.arg 1) with ⟨hx, h1, -⟩ | ⟨hx, ⟨n, h1⟩, -⟩
    · rw [if_pos hx, h1]
      exact .inr ⟨rfl, nofun⟩
    · rw [if_neg hx]
      exact .inl ⟨_, n, rfl, h1⟩

theorem sockaddrMem_eq : sockaddrMem k w t forBind =
    match translated w t.view t.frame forBind with
    | some s => putBytes t.mem ((t.arg 1 + 2) % addrMax) (pathBytes k ((t.arg 1 + 2) % addrMax) s)
    | none => t.mem := by
  rw [sockaddrMem]
  obtain ⟨s, n, htr, hout⟩ | ⟨htr, hout⟩ := @doSockaddrUn_cases w forBind t.view t.frame
  · rw [htr, hout]
    dsimp only
    rw [rewriteSockaddr, pokeOwn,
      pokeOr_eq (fun a h => k.poke_user a (Bool.and_eq_true_iff.1 h).2) (Nat.mod_lt _ (by decide))]
    rfl
  · rw [htr]
    generalize (doSockaddrUn w t.view t.frame forBind).1 = out at hout
    cases out with
    | sockRewrite a s l n => exact absurd rfl (hout a s l n)
    | _ => rfl

theorem putBytes_eq_self_iff {m : Mem} {a : ℕ} {bs : List UInt8} :
    (∀ x, putBytes m a bs x = m x) ↔ ∀ i b, bs[i]? = some b → m (a + i) = b := by
  constructor
  · intro h i b hb
    have hi : i < bs.length := (List.getElem?_eq_some_iff.1 hb).1
    have hput : some (putBytes m a bs (a + i)) = bs[a + i - a]? :=
      putBytes_of_mem (by omega) (by omega)
    rw [Nat.add_sub_cancel_left, hb, h] at hput
    exact Option.some.inj hput
  · intro h x
    by_cases hx : a ≤ x ∧ x < a + bs.length
    · have hput := putBytes_of_mem (m := m) hx.1 hx.2
      have hmem := h (x - a) _ hput.symm
      rw [Nat.add_sub_cancel' hx.1] at hmem
      exact hmem.symm
    · exact putBytes_of_apart (by omega)

end Memory

/-- **The address is left alone** exactly if no path takes the place of the guest's, or every byte
of it that can be written is there already. -/
theorem sockaddr_memory_kept_iff (k : Replies) (w : World) (t : Stop) (forBind : Bool) :
    ((∀ x, x < t.arg 1 ∨ t.arg 1 + t.arg 2 ≤ x → sockaddrMem k w t forBind x = t.mem x) ∧
        ∀ x, t.arg 1 ≤ x → x < t.arg 1 + t.arg 2 → sockaddrMem k w t forBind x = t.mem x) ↔
      ∀ s, translated w t.view t.frame forBind = some s →
      ∀ i b, (pathBytes k ((t.arg 1 + 2) % addrMax) s)[i]? = some b →
      t.mem ((t.arg 1 + 2) % addrMax + i) = b := by
  -- the two ranges are all of memory
  have hall : ((∀ x, x < t.arg 1 ∨ t.arg 1 + t.arg 2 ≤ x → sockaddrMem k w t forBind x = t.mem x) ∧
        ∀ x, t.arg 1 ≤ x → x < t.arg 1 + t.arg 2 → sockaddrMem k w t forBind x = t.mem x) ↔
      ∀ x, sockaddrMem k w t forBind x = t.mem x := by
    constructor
    · rintro ⟨hout, hin⟩ x
      by_cases hx : t.arg 1 ≤ x ∧ x < t.arg 1 + t.arg 2
      · exact hin x hx.1 hx.2
      · exact hout x (by omega)
    · exact fun h => ⟨fun x _ => h x, fun x _ _ => h x⟩
  rw [hall, sockaddrMem_eq]
  cases translated w t.view t.frame forBind with
  | none => exact iff_of_true (fun _ => rfl) nofun
  | some s =>
    refine putBytes_eq_self_iff.trans ⟨fun h s' hs => ?_, fun h => h s rfl⟩
    cases hs
    exact h

/-! ## One address -/

/-- A task that calls `bind` with the address of `/run/s` at 4096. -/
def bindStop : Stop where
  arch := .x8664
  regs r := match r with | .arg 1 => 4096 | .arg 2 => 9 | _ => 0
  mem a := ([1, 0] ++ bytesOf "/run/s").getD (a - 4096) 0
  pages := pagesTo7

/-- The path that is written is longer than the guest's: it changes bytes of the address and behind
it. -/
theorem bind_overruns_address :
    translated sockWorld bindStop.view bindStop.frame true = some "/srv/up/run/s".toList ∧
      sockaddrMem noRefusals sockWorld bindStop true 4107 = 0x75 ∧ bindStop.mem 4107 = 0 ∧
      bindStop.arg 1 + bindStop.arg 2 ≤ 4107 ∧
      sockaddrMem noRefusals sockWorld bindStop true 4099 = 0x73 ∧ bindStop.mem 4099 = 0x72 := by
  have htr : translated sockWorld bindStop.view bindStop.frame true = some "/srv/up/run/s" := by
    decide +kernel
  rw [sockaddrMem_eq, htr]
  decide +kernel

end Linuxity.Runtime
