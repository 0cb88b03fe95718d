import Linuxity.Logic.Follow
import Linuxity.Logic.Run
import Mathlib.Data.Int.Notation
import Mathlib.Logic.Function.Basic
import Mathlib.Tactic.SplitIfs

/-!
# Kernel.ProcTable — process groups and sessions (`kernel/process_table.hpp`, `runtime/trap.hpp`)

A forked process has no group and no session in its record.  They are looked up along its parents
each time they are asked for.
-/

namespace Linuxity.Kernel.ProcTable

open Logic Function Option

/-- The fields that group and session are answered from. -/
structure ProcInfo where
  pid : ℤ := 1
  ppid : ℤ := 0
  pgid : ℤ := 0
  sid : ℤ := 0
  deriving DecidableEq

abbrev Table := ℤ → Option ProcInfo

/-- Stands in for the host group and session that pid 1 was born into. -/
def kInheritedPgid : ℤ := 0x7fff0000

def start : Table :=
  update (fun _ => none) 1 (some { pgid := kInheritedPgid, sid := kInheritedPgid })

/-- Group and session are kept unless the new record sets them. -/
def upsert (tbl : Table) (p : ProcInfo) : Table :=
  let cur := (tbl p.pid).getD {}
  update tbl p.pid
    (some { p with
      pgid := if p.pgid ≠ 0 then p.pgid else cur.pgid
      sid := if p.sid ≠ 0 then p.sid else cur.sid })

def setPgid (tbl : Table) (pid pgid : ℤ) : Table :=
  let cur := (tbl pid).getD {}
  update tbl pid
    (some { cur with
      pid := if cur.pid = 0 then pid else cur.pid
      pgid := if pgid ≠ 0 then pgid else pid })

def setSid (tbl : Table) (pid : ℤ) : Table :=
  let cur := (tbl pid).getD {}
  update tbl pid
    (some { cur with pid := if cur.pid = 0 then pid else cur.pid, sid := pid, pgid := pid })

def remove (tbl : Table) (pid : ℤ) : Table := if pid ≠ 1 then update tbl pid none else tbl

inductive Kind where
  | group
  | session
  deriving DecidableEq

def Kind.of : Kind → ProcInfo → ℤ
  | .group => ProcInfo.pgid
  | .session => ProcInfo.sid

def next (k : Kind) (tbl : Table) (pid : ℤ) : ℤ ⊕ ℤ :=
  if pid ≤ 0 then .inr pid
  else
    match tbl pid with
    | none => .inr pid
    | some p =>
      if k.of p ≠ 0 then .inr (k.of p)
      else if p.ppid ≠ 0 ∧ p.ppid ≠ p.pid then .inl p.ppid else .inr p.pid

/-- The table answers `v` for the group or the session of a process. -/
def Answers (k : Kind) (tbl : Table) (pid v : ℤ) : Prop := LeadsTo (next k tbl) pid v

variable {tbl : Table} {t : ℤ}

/-- What is recorded in the table: the events of the tracer and the two calls. -/
inductive Event where
  | spawn (pid ppid : ℤ)
  | exec (pid : ℤ)
  | reparent (pid ppid : ℤ)
  | reap (pid : ℤ)
  | setpgid (pid pgid : ℤ)
  | setsid (pid : ℤ)

def apply (tbl : Table) : Event → Table
  | .spawn pid ppid => upsert tbl { pid := pid, ppid := ppid }
  | .exec pid =>
    match tbl pid with
    | none => tbl
    | some p => upsert tbl p
  | .reparent pid ppid =>
    match tbl pid with
    | none => tbl
    | some p => update tbl pid (some { p with ppid := ppid })
  | .reap pid => remove tbl pid
  | .setpgid pid pgid => setPgid tbl pid pgid
  | .setsid pid => setSid tbl pid

def Event.Own (c : ℤ) : Event → Prop
  | .spawn pid _ | .reap pid | .setpgid pid _ | .setsid pid => pid = c
  | .exec _ | .reparent _ _ => False

/-! ## Steps that no other process sees -/

/-- No lookup of another process comes past this one. -/
def Lone (k : Kind) (tbl : Table) (t : ℤ) : Prop := ∀ c, c ≠ t → ¬Passes (next k tbl) c t

/-- Nobody asks past `t`, or finds the same answer there as before. -/
def Unseen (k : Kind) (tbl : Table) (t v : ℤ) : Prop := Lone k tbl t ∨ Answers k tbl t v

/-- A new process gets a free number and has its parent in the tree; a new parent gives the answers
of the old one. -/
def Harmless (tbl : Table) (e : Event) : Prop :=
  ∀ k, match e with
  | .spawn c p => (0 < c ∧ tbl c = none) ∧ (p ≠ 0 ∧ p ≠ c) ∧ Lone k tbl c
  | .exec _ => True
  | .reparent c p => tbl c = none ∨ (∃ r, tbl c = some r ∧ k.of r ≠ 0) ∨ c ≤ 0 ∨
      (p ≠ 0 ∧ p ≠ c) ∧ ¬Passes (next k tbl) p c ∧ ∃ v, Answers k tbl c v ∧ Answers k tbl p v
  | .reap t => t = 1 ∨ Unseen k tbl t t
  | .setpgid t g => tbl t ≠ none ∧ (k = .group → Unseen k tbl t (if g ≠ 0 then g else t))
  | .setsid t => tbl t ≠ none ∧ Unseen k tbl t t

def Keyed (tbl : Table) : Prop := ∀ t p, tbl t = some p → p.pid = t

section Step

variable {k : Kind} {tbl : Table} {c t v : ℤ} {r : Option ProcInfo} {e : Event}

theorem next_update (h : c ≠ t) : next k (update tbl t r) c = next k tbl c := by
  unfold next
  rw [update_of_ne h]

theorem next_nonpos (h : t ≤ 0) : next k tbl t = .inr t := if_pos h

theorem next_none (h : tbl t = none) : next k tbl t = .inr t := by
  unfold next
  rw [h, ite_self]

variable {p q : ProcInfo}

theorem next_set (ht : 0 < t) (h : tbl t = some p) (hp : k.of p ≠ 0) :
    next k tbl t = .inr (k.of p) := by
  unfold next
  rw [if_neg (by omega), h]
  exact if_pos hp

/-- The others see a new record only if they ask past it and find another answer. -/
theorem Unseen.put (h : Unseen k tbl t v) (hnew : Answers k (update tbl t r) t v) (hc : c ≠ t)
    {u : ℤ} (hu : Answers k tbl c u) : Answers k (update tbl t r) c u := by
  rcases h with hlone | hsame
  · exact hu.keep (fun x hx => next_update hx) hc (hlone c hc)
  · exact hu.replace (fun x hx => next_update hx) hsame hnew

theorem upsert_fresh {ppid : ℤ} (h : tbl c = none) :
    upsert tbl { pid := c, ppid := ppid } = update tbl c (some { pid := c, ppid := ppid }) := by
  unfold upsert
  rw [h]
  rfl

theorem upsert_self (h : tbl p.pid = some p) : upsert tbl p = tbl := by
  unfold upsert
  rw [h]
  have hsame :
      ({ p with
        pgid := if p.pgid ≠ 0 then p.pgid else p.pgid
        sid := if p.sid ≠ 0 then p.sid else p.sid } : ProcInfo) = p := by
    rw [ite_self, ite_self]
  dsimp only [getD_some]
  rw [hsame, ← h, update_eq_self]

/-- A new process answers with its parent's group and session. -/
theorem answers_spawn {p : ℤ} (h : Harmless tbl (.spawn c p)) (hv : Answers k tbl p v) :
    Answers k (apply tbl (.spawn c p)) c v := by
  obtain ⟨⟨hpos, hfree⟩, ⟨hp0, hpc⟩, hlone⟩ := h k
  rw [apply, upsert_fresh hfree]
  have hnext : next k (update tbl c (some { pid := c, ppid := p })) c = .inl p := by
    unfold next
    rw [if_neg (by omega), update_self]
    cases k <;> exact (if_neg (by simp [Kind.of])).trans (if_pos ⟨hp0, hpc⟩)
  exact (leadsTo_inl hnext).2 (hv.keep (fun x hx => next_update hx) hpc (hlone p hpc))

theorem setPgid_eq {g : ℤ} (h : tbl t = some p) (hpid : p.pid = t) :
    setPgid tbl t g = update tbl t (some { p with pgid := if g ≠ 0 then g else t }) := by
  unfold setPgid
  rw [h]
  dsimp only [getD_some]
  rw [hpid, ite_self]

theorem setSid_eq (h : tbl t = some p) (hpid : p.pid = t) :
    setSid tbl t = update tbl t (some { p with sid := t, pgid := t }) := by
  unfold setSid
  rw [h]
  dsimp only [getD_some]
  rw [hpid, ite_self]

theorem next_replace (hp : tbl t = some p) (hof : k.of q = k.of p)
    (hppid : k.of p = 0 → q.ppid = p.ppid ∧ q.pid = p.pid) :
    next k (update tbl t (some q)) = next k tbl := by
  funext x
  by_cases hx : x = t
  · obtain rfl := hx
    unfold next
    rw [update_self, hp]
    dsimp only
    rw [hof]
    by_cases h0 : k.of p = 0
    · rw [(hppid h0).1, (hppid h0).2]
    · rw [if_pos h0, if_pos h0]
  · exact next_update hx

/-- A record that answers by itself, seen by nobody else or with the old answer. -/
theorem Unseen.set (h : Unseen k tbl t (k.of q)) (hq : 0 < t → k.of q ≠ 0) (hc : c ≠ t)
    (hv : Answers k tbl c v) : Answers k (update tbl t (some q)) c v := by
  by_cases ht : 0 < t
  · exact h.put (leadsTo_inr (next_set ht (update_self _ _ _) (hq ht))) hc hv
  · -- nobody reads the record of such a number
    exact hv.replace (fun x hx => next_update hx) (leadsTo_inr (next_nonpos (by omega)))
      (leadsTo_inr (next_nonpos (by omega)))

theorem answers_own (hq : 0 < t → k.of q ≠ 0) : ∃ v, Answers k (update tbl t (some q)) t v := by
  by_cases ht : 0 < t
  · exact ⟨_, leadsTo_inr (next_set ht (update_self _ _ _) (hq ht))⟩
  · exact ⟨_, leadsTo_inr (next_nonpos (by omega))⟩

theorem groupSet_ne_zero {g : ℤ} (ht : 0 < t) : (if g ≠ 0 then g else t) ≠ 0 := by
  split_ifs <;> omega

theorem answers_reparent {p u : ℤ} {r : ProcInfo} (hpid : r.pid = t) (hset : k.of r = 0)
    (hpos : 0 < t) (hp : p ≠ 0 ∧ p ≠ t) (hpass : ¬Passes (next k tbl) p t) (hu : Answers k tbl t u)
    (hpu : Answers k tbl p u) (hv : Answers k tbl c v) :
    Answers k (update tbl t (some { r with ppid := p })) c v := by
  have hnext : next k (update tbl t (some { r with ppid := p })) t = .inl p := by
    unfold next
    rw [if_neg (by omega), update_self]
    have hof : k.of { r with ppid := p } = 0 := by cases k <;> exact hset
    exact (if_neg (not_not.2 hof)).trans (if_pos ⟨hp.1, by rw [hpid]; exact hp.2⟩)
  refine hv.replace (fun x hx => next_update hx) hu ((leadsTo_inl hnext).2 ?_)
  exact hpu.keep (fun x hx => next_update hx) hp.2 hpass

/-- One step: the answers for every process that the event is not about stay. -/
theorem answers_step (hkey : Keyed tbl) (h : Harmless tbl e) (hown : ¬e.Own c)
    (hv : Answers k tbl c v) : Answers k (apply tbl e) c v := by
  have hk := h k
  cases e with
  | spawn t p =>
    obtain ⟨⟨hpos, hfree⟩, -, hlone⟩ := hk
    have hc : c ≠ t := fun hc => hown hc.symm
    rw [apply, upsert_fresh hfree]
    exact hv.keep (fun x hx => next_update hx) hc (hlone c hc)
  | exec t =>
    rw [apply]
    split
    · exact hv
    · rename_i p hp
      rw [upsert_self (by rw [hkey t p hp]; exact hp)]
      exact hv
  | reparent t p =>
    rw [apply]
    split
    · exact hv
    · rename_i r hr
      by_cases hset : k.of r = 0
      · by_cases hpos : 0 < t
        · rcases hk with hnone | ⟨r', hr', hset'⟩ | hneg | ⟨hp, hpass, u, hu, hpu⟩
          · rw [hnone] at hr
            cases hr
          · cases hr.symm.trans hr'
            exact absurd hset hset'
          · omega
          · exact answers_reparent (hkey t r hr) hset hpos hp hpass hu hpu hv
        · exact hv.replace (fun x hx => next_update hx) (leadsTo_inr (next_nonpos (by omega)))
            (leadsTo_inr (next_nonpos (by omega)))
      · -- the record answers by itself, whoever the parent is
        rw [Answers, next_replace hr (by cases k <;> rfl) fun h0 => absurd h0 hset]
        exact hv
  | reap t =>
    have hc : c ≠ t := fun hc => hown hc.symm
    rw [apply, remove]
    split_ifs with h1
    · exact (hk.resolve_left h1).put (leadsTo_inr (next_none (update_self _ _ _))) hc hv
    · exact hv
  | setpgid t g =>
    have hc : c ≠ t := fun hc => hown hc.symm
    obtain ⟨p, hp⟩ := ne_none_iff_exists'.1 hk.1
    rw [apply, setPgid_eq hp (hkey t p hp)]
    cases k with
    | group =>
      exact Unseen.set (hk.2 rfl) groupSet_ne_zero hc hv
    | session =>
      rw [Answers, next_replace (q := { p with pgid := if g ≠ 0 then g else t }) hp rfl
        fun _ => ⟨rfl, rfl⟩]
      exact hv
  | setsid t =>
    have hc : c ≠ t := fun hc => hown hc.symm
    obtain ⟨p, hp⟩ := ne_none_iff_exists'.1 hk.1
    rw [apply, setSid_eq hp (hkey t p hp)]
    refine Unseen.set ?_ (fun hpos => ?_) hc hv
    · cases k <;> exact hk.2
    · cases k <;> exact (show t ≠ 0 by omega)

theorem keyed_update (hkey : Keyed tbl) (hq : q.pid = t) : Keyed (update tbl t (some q)) := by
  intro x p hp
  by_cases hx : x = t
  · rw [hx, update_self] at hp
    cases hp
    rw [hx, hq]
  · rw [update_of_ne hx] at hp
    exact hkey x p hp

theorem keyed_remove (hkey : Keyed tbl) : Keyed (remove tbl t) := by
  unfold remove
  split_ifs
  · intro x p hp
    by_cases hx : x = t
    · rw [hx, update_self] at hp
      cases hp
    · rw [update_of_ne hx] at hp
      exact hkey x p hp
  · exact hkey

theorem keyed_step (hkey : Keyed tbl) (h : Harmless tbl e) : Keyed (apply tbl e) := by
  have hk := h .group
  cases e with
  | spawn t p =>
    rw [apply, upsert_fresh hk.1.2]
    exact keyed_update hkey rfl
  | exec t =>
    rw [apply]
    split
    · exact hkey
    · rename_i p hp
      rw [upsert_self (by rw [hkey t p hp]; exact hp)]
      exact hkey
  | reparent t p =>
    rw [apply]
    split
    · exact hkey
    · rename_i r hr
      exact keyed_update hkey (hkey t r hr)
  | reap t => exact keyed_remove hkey
  | setpgid t g =>
    obtain ⟨p, hp⟩ := ne_none_iff_exists'.1 hk.1
    rw [apply, setPgid_eq hp (hkey t p hp)]
    exact keyed_update hkey (hkey t p hp)
  | setsid t =>
    obtain ⟨p, hp⟩ := ne_none_iff_exists'.1 hk.1
    rw [apply, setSid_eq hp (hkey t p hp)]
    exact keyed_update hkey (hkey t p hp)

def Total (tbl : Table) : Prop := ∀ k c, ∃ v, Answers k tbl c v

theorem total_step (hkey : Keyed tbl) (htotal : Total tbl) (h : Harmless tbl e) :
    Total (apply tbl e) := by
  intro k c
  by_cases hown : e.Own c
  · have hk := h k
    cases e with
    | spawn t p =>
      obtain rfl : t = c := hown
      obtain ⟨v, hv⟩ := htotal k p
      exact ⟨v, answers_spawn h hv⟩
    | exec | reparent => exact hown.elim
    | reap t =>
      obtain rfl : t = c := hown
      rw [apply, remove]
      split_ifs
      · exact ⟨t, leadsTo_inr (next_none (update_self _ _ _))⟩
      · exact htotal k t
    | setpgid t g =>
      obtain rfl : t = c := hown
      obtain ⟨p, hp⟩ := ne_none_iff_exists'.1 hk.1
      rw [apply, setPgid_eq hp (hkey t p hp)]
      cases k with
      | group => exact answers_own groupSet_ne_zero
      | session =>
        obtain ⟨v, hv⟩ := htotal .session t
        refine ⟨v, ?_⟩
        rw [Answers, next_replace (q := { p with pgid := if g ≠ 0 then g else t }) hp rfl
          fun _ => ⟨rfl, rfl⟩]
        exact hv
    | setsid t =>
      obtain rfl : t = c := hown
      obtain ⟨p, hp⟩ := ne_none_iff_exists'.1 hk.1
      rw [apply, setSid_eq hp (hkey t p hp)]
      exact answers_own fun hpos => by cases k <;> exact (show t ≠ 0 by omega)
  · obtain ⟨v, hv⟩ := htotal k c
    exact ⟨v, answers_step hkey h hown hv⟩

theorem keyed_start : Keyed start := keyed_update (fun _ _ h => by cases h) rfl

theorem total_start : Total start := by
  intro k c
  by_cases hc : c = 1
  · rw [hc]
    exact answers_own fun _ => by cases k <;> decide
  · exact ⟨c, leadsTo_inr (next_none (update_of_ne hc _ _))⟩

theorem answers_run {es : List Event} (hkey : Keyed tbl) (h : Along apply Harmless tbl es)
    (hown : ∀ e ∈ es, ¬e.Own c) (hv : Answers k tbl c v) : Answers k (es.foldl apply tbl) c v := by
  induction es generalizing tbl with
  | nil => exact hv
  | cons e es ih =>
    rw [List.forall_mem_cons] at hown
    exact ih (keyed_step hkey h.1) h.2 hown.2 (answers_step hkey h.1 hown.1 hv)

end Step

/-- **A fork takes a snapshot.** In a run of harmless events the group and the session of a child
are those its parent had at the fork, until an event is about the child itself. -/
theorem fork_snapshots_job_control (before after : List Event) (child parent : ℤ)
    (h : Along apply Harmless start (before ++ .spawn child parent :: after))
    (hown : ∀ e ∈ after, ¬e.Own child) (k : Kind) :
    ∃ v, Answers k (before.foldl apply start) parent v ∧
      Answers k ((before ++ .spawn child parent :: after).foldl apply start) child v := by
  rw [along_append] at h
  obtain ⟨hbefore, hspawn, hafter⟩ := h
  obtain ⟨hkey, htotal⟩ := hbefore.keeps (I := fun tbl => Keyed tbl ∧ Total tbl)
    (fun _ _ h he => ⟨keyed_step h.1 he, total_step h.1 h.2 he⟩) ⟨keyed_start, total_start⟩
  obtain ⟨v, hv⟩ := htotal k parent
  refine ⟨v, hv, ?_⟩
  rw [List.foldl_append, List.foldl_cons]
  exact answers_run (keyed_step hkey hspawn) hafter hown (answers_spawn hspawn hv)

/-! ## Three runs -/

theorem lone_of_childless {k : Kind} (h : ∀ x p, tbl x = some p → p.ppid ≠ t) : Lone k tbl t := by
  intro c _ hpass
  obtain ⟨x, hx⟩ := hpass.pointed
  unfold next at hx
  split at hx
  · cases hx
  · split at hx
    · cases hx
    · rename_i p hp
      split_ifs at hx
      exact h x p hp (Sum.inl.inj hx)

/-- Pid 1 starts 2 and 3, and 3 makes a session of its own and ends. -/
def quietRun : List Event := [.spawn 2 1, .spawn 3 1, .setsid 3, .reap 3]

def Flat (tbl : Table) : Prop := ∀ x p, tbl x = some p → p.ppid = 0 ∨ p.ppid = 1

theorem Flat.put {q : ProcInfo} (h : Flat tbl) (hq : q.ppid = 0 ∨ q.ppid = 1) :
    Flat (update tbl t (some q)) := by
  intro x p hp
  by_cases hx : x = t
  · rw [hx, update_self] at hp
    cases hp
    exact hq
  · rw [update_of_ne hx] at hp
    exact h x p hp

theorem Flat.lone {k : Kind} (h : Flat tbl) (ht : t ≠ 0 ∧ t ≠ 1) : Lone k tbl t :=
  lone_of_childless fun x p hp => by
    have := h x p hp
    omega

theorem fork_snapshots_quietRun :
    ∃ v, Answers .group start 1 v ∧ Answers .group (quietRun.foldl apply start) 2 v := by
  have h0 : Flat start := Flat.put (fun _ _ h => by cases h) (by decide)
  have h1 : Flat (apply start (.spawn 2 1)) := h0.put (by decide)
  have h2 : Flat (apply (apply start (.spawn 2 1)) (.spawn 3 1)) := h1.put (by decide)
  have h3 : Flat (apply (apply (apply start (.spawn 2 1)) (.spawn 3 1)) (.setsid 3)) :=
    h2.put (by decide)
  refine fork_snapshots_job_control [] [.spawn 3 1, .setsid 3, .reap 3] 2 1
    ⟨fun k => ?_, fun k => ?_, fun k => ?_, fun k => ?_, trivial⟩
    (by simp [Event.Own]) .group
  · exact ⟨⟨by decide, by decide⟩, by decide, h0.lone (by decide)⟩
  · exact ⟨⟨by decide, by decide⟩, by decide, h1.lone (by decide)⟩
  · exact ⟨by decide, .inl (h2.lone (by decide))⟩
  · exact .inr (.inl (h3.lone (by decide)))

/-- After the fork the parent leads a new group; or it ends, and its child goes to pid 1. -/
theorem parent_moves_child :
    (Answers .group ([Event.spawn 2 1].foldl apply start) 2 kInheritedPgid ∧
        Answers .group ([Event.spawn 2 1, .spawn 3 2, .setpgid 2 2].foldl apply start) 3 2) ∧
      (Answers .group ([Event.spawn 2 1, .setpgid 2 2].foldl apply start) 2 2 ∧
        Answers .group
        ([Event.spawn 2 1, .setpgid 2 2, .spawn 3 2, .reap 2, .reparent 3 1].foldl apply start) 3
        kInheritedPgid) :=
  ⟨⟨⟨3, by decide⟩, ⟨3, by decide⟩⟩, ⟨⟨3, by decide⟩, ⟨3, by decide⟩⟩⟩

/-! ## What the table lists -/

/-- Everything that indexes the table.  `leader` is the session that `sid_of` answers. -/
inductive Call where
  | event (e : Event)
  | setCtty (pid leader : ℤ)
  | clearCtty (pid : ℤ)
  | setComm (pid : ℤ)
  | setGroups (pid : ℤ)

/-- `procs_[pid]`, and the check that is to give a new record its number. -/
def touch (tbl : Table) (pid : ℤ) : Table :=
  let cur := (tbl pid).getD {}
  update tbl pid (some { cur with pid := if cur.pid = 0 then pid else cur.pid })

/-- Terminals, names and supplementary groups are fields that are not looked at here. -/
def Call.apply (tbl : Table) : Call → Table
  | .event e => ProcTable.apply tbl e
  | .setCtty pid leader => touch (touch tbl leader) pid
  | .clearCtty _ => tbl
  | .setComm pid => update tbl pid (some { (tbl pid).getD {} with pid := pid })
  | .setGroups pid => touch tbl pid

/-- The processes that a setter is about. -/
def Call.sets : Call → List ℤ
  | .event (.setpgid pid _) | .event (.setsid pid) | .setComm pid | .setGroups pid => [pid]
  | .setCtty pid leader => [pid, leader]
  | _ => []

/-- What should be listed afterwards: a spawn adds a process, and only pid 1 is not removed. -/
def Call.listed (S : ℤ → Prop) : Call → ℤ → Prop
  | .event (.spawn pid _) => fun t => S t ∨ t = pid
  | .event (.reap pid) => fun t => S t ∧ (t = pid → pid = 1)
  | _ => S

structure Lists (tbl : Table) (S : ℤ → Prop) : Prop where
  keyed : Keyed tbl
  listed : ∀ t, tbl t ≠ none ↔ S t

section Listed

variable {S : ℤ → Prop} {q : ProcInfo}

theorem Lists.put (h : Lists tbl S) (hq : q.pid = t) :
    Lists (update tbl t (some q)) fun x => S x ∨ x = t := by
  refine ⟨keyed_update h.keyed hq, fun x => ?_⟩
  by_cases hx : x = t
  · rw [hx, update_self]
    simp
  · rw [update_of_ne hx, h.listed x]
    simp [hx]

/-- Writing to the record of a process is right, and to any other it makes one. -/
theorem Lists.put_iff (h : Lists tbl S) (hq : S t → q.pid = t) :
    Lists (update tbl t (some q)) S ↔ S t := by
  constructor
  · intro h'
    exact (h'.listed t).1 (by rw [update_self]; nofun)
  · intro ht
    have hput := h.put (hq ht)
    rwa [show (fun x => S x ∨ x = t) = S from funext fun x =>
      propext ⟨fun hx => hx.elim id (· ▸ ht), .inl⟩] at hput

theorem Lists.name (h : Lists tbl S) (ht : S t) :
    (if ((tbl t).getD {}).pid = 0 then t else ((tbl t).getD {}).pid) = t := by
  obtain ⟨p, hp⟩ := ne_none_iff_exists'.1 ((h.listed t).2 ht)
  rw [hp, getD_some, h.keyed t p hp, ite_self]

theorem Lists.touch_iff (h : Lists tbl S) : Lists (touch tbl t) S ↔ S t := h.put_iff h.name

theorem Lists.call_iff (h : Lists tbl S) (c : Call) :
    Lists (c.apply tbl) (c.listed S) ↔ ∀ t ∈ c.sets, S t := by
  have hset (t : ℤ) : (∀ x ∈ [t], S x) ↔ S t := List.forall_mem_singleton
  cases c with
  | event e =>
    cases e with
    | spawn t p => exact iff_of_true (h.put rfl) nofun
    | exec t =>
      refine iff_of_true ?_ nofun
      rw [Call.apply, apply]
      split
      · exact h
      · rename_i p hp
        rw [upsert_self (by rw [h.keyed t p hp]; exact hp)]
        exact h
    | reparent t p =>
      refine iff_of_true ?_ nofun
      rw [Call.apply, apply]
      split
      · exact h
      · rename_i r hr
        exact (h.put_iff (q := { r with ppid := p }) fun _ => h.keyed t r hr).2
          ((h.listed t).1 (by rw [hr]; nofun))
    | reap t =>
      refine iff_of_true ⟨keyed_remove h.keyed, fun x => ?_⟩ nofun
      change remove tbl t x ≠ none ↔ S x ∧ (x = t → t = 1)
      rw [← h.listed x, remove]
      by_cases ht : t = 1
      · simp [ht]
      · by_cases hx : x = t
        · simp [hx, ht]
        · simp [hx, ht]
    | setpgid t g => exact (h.put_iff h.name).trans (hset t).symm
    | setsid t => exact (h.put_iff h.name).trans (hset t).symm
  | setCtty t l =>
    have hsets : (∀ x ∈ [t, l], S x) ↔ S t ∧ S l := by simp
    refine Iff.trans ⟨fun h' => ?_, fun ⟨ht, hl⟩ => ?_⟩ hsets.symm
    · have htouched : touch (touch tbl l) t l ≠ none := by
        by_cases hl : l = t
        · rw [hl, touch, update_self]
          nofun
        · rw [touch, update_of_ne hl, touch, update_self]
          nofun
      exact ⟨(h'.listed t).1 (by rw [Call.apply, touch, update_self]; nofun),
        (h'.listed l).1 htouched⟩
    · exact (h.touch_iff.2 hl).touch_iff.2 ht
  | clearCtty t => exact iff_of_true h nofun
  | setComm t =>
    exact (h.put_iff (q := { (tbl t).getD {} with pid := t }) fun _ => rfl).trans (hset t).symm
  | setGroups t => exact h.touch_iff.trans (hset t).symm

/-- A call, with the processes that are to be listed kept beside the table. -/
def Call.step (s : Table × (ℤ → Prop)) (c : Call) : Table × (ℤ → Prop) :=
  (c.apply s.1, c.listed s.2)

end Listed

theorem table_lists_processes_iff (cs : List Call) :
    Along Call.step (fun s c => Lists (c.step s).1 (c.step s).2) (start, (· = 1)) cs ↔
      Along Call.step (fun s c => ∀ t ∈ c.sets, s.2 t) (start, (· = 1)) cs := by
  refine along_iff (I := fun s : _ × _ => Lists s.1 s.2) (fun s c h => h.call_iff c)
    ⟨keyed_start, fun t => ?_⟩ cs
  by_cases ht : t = 1
  · simp [start, ht]
  · simp [start, ht]

/-- The terminal of pid 1 makes a record for the session it was born into, and the record says that
it is pid 1. -/
theorem terminal_of_init_listed : Answers .session start 1 kInheritedPgid ∧
    ¬Lists ((Call.setCtty 1 kInheritedPgid).apply start) (· = 1) :=
  ⟨⟨1, by decide⟩, fun h => absurd ((h.listed kInheritedPgid).1 (by decide)) (by decide)⟩

end Linuxity.Kernel.ProcTable
