import Linuxity.Kernel.World
import Linuxity.Posix.Grow

/-!
# Kernel.CopyUp — probing the two layers and copying up (`kernel/file_namespace.hpp`)
-/

namespace Linuxity.Kernel

open Posix List

/-! ## Probes -/

/-- `at_long_parent`: a path too long for one call, opened directory by directory. -/
def atLongParent (h : Host) (p : Str) : Except Errno Loc :=
  if leafOf p = [] then .error .enametoolong
  else (comps (dirOf p)).foldlM (fun cur part =>
    match h.walk true maxLinks cur [part] with
    | .error e => .error e
    | .ok (.free _ _) => .error .enoent
    | .ok (.found l) => if h.isDirAt l then .ok l else .error .enotdir) []

/-- The final name of a path too long for one call. -/
def longNode (h : Host) (p : Str) (follow : Bool) : Except Errno Node :=
  match atLongParent h p with
  | .error e => .error e
  | .ok dfd =>
    match h.walk follow maxLinks dfd [leafOf p] with
    | .error e => .error e
    | .ok (.free _ _) => .error .enoent
    | .ok (.found l) => match h.node l with | none => .error .enoent | some n => .ok n

/-- The node of a path, whatever its length. -/
def nodeAnyLength (h : Host) (p : Str) (follow : Bool) : Except Errno Node :=
  match h.nodeOf p follow with
  | .error .enametoolong => longNode h p follow
  | r => r

def hostExists (h : Host) (p : Str) : Bool := (nodeAnyLength h p false).isOk

def isDir (h : Host) (p : Str) : Bool :=
  match nodeAnyLength h p true with
  | .ok n => n.isDir
  | .error _ => false

inductive Probe where
  | symlink (target : Str)
  | present
  | absent
  | notdir
  deriving DecidableEq

/-- One `readlink` that tells a link, another node, a missing name and a file used as a directory
apart; any other failure counts as missing. -/
def probeLink (h : Host) (p : Str) : Probe :=
  match nodeAnyLength h p false with
  | .ok n => match n.kind with | .link t => .symlink t | _ => .present
  | .error .enotdir => .notdir
  | .error _ => .absent

variable {f : Bool} {h : Host} {n : Node} {p : Str} {cs : List Str} (w : World) (up lo : Str)

theorem nodeOf_mem (hn : h.nodeOf p f = .ok n) : ∃ l, h.node l = some n := by
  unfold Host.nodeOf at hn
  split at hn
  · cases hn
  · cases hn
  · split at hn
    · cases hn
    · cases hn
      exact ⟨_, by assumption⟩

theorem longNode_mem (hn : longNode h p f = .ok n) : ∃ l, h.node l = some n := by
  unfold longNode at hn
  split at hn
  · cases hn
  · split at hn
    · cases hn
    · cases hn
    · split at hn
      · cases hn
      · cases hn
        exact ⟨_, by assumption⟩

theorem nodeAnyLength_mem (hn : nodeAnyLength h p f = .ok n) : ∃ l, h.node l = some n := by
  unfold nodeAnyLength at hn
  split at hn
  · exact longNode_mem hn
  · exact nodeOf_mem hn

theorem probeLink_ne_symlink_nil (h : Host) (p : Str) : probeLink h p ≠ .symlink [] := by
  unfold probeLink
  cases hn : nodeAnyLength h p false with
  | error e => cases e <;> simp
  | ok n =>
    obtain ⟨l, hl⟩ := nodeAnyLength_mem hn
    have := h.linkText hl
    cases hk : n.kind <;> simp_all

/-! ## Copying up -/

/-- The prefixes of a directory path that end before a slash, and the path itself. -/
def cuts (acc : Str) : Str → List Str
  | [] => [acc]
  | c :: rest =>
    if c = '/' ∧ acc ≠ [] then acc :: cuts (acc ++ [c]) rest else cuts (acc ++ [c]) rest

/-- Entries made with more access than they shipped with: how far before the end of the path the
entry ends, and its real mode. -/
abbrev Widened := List (Nat × Nat)

/-- The mode of the lower twin of an ancestor that ends `tail` characters before the directory. -/
def lowerMode (h : Host) (loDir : Str) (tail : Nat) : Nat :=
  if loDir ≠ [] ∧ tail ≤ loDir.length then
    match h.stat (loDir.take (loDir.length - tail)) with
    | .ok n => if n.isDir then n.mode &&& 0o7777 else 0o755
    | .error _ => 0o755
  else 0o755

def mkdirExact (p : Str) (mode : Nat) : Except Errno Unit × World :=
  match w.mkdir p mode with
  | (.error e, w) => (.error e, w)
  | (.ok _, w) => (.ok (), (w.chmod p mode).2)

def writeExact (p : Str) (mode : Nat) (data : Str) : Except Errno Unit × World :=
  match w.writeFile p mode data with
  | (.error e, w) => (.error e, w)
  | (.ok _, w) => (.ok (), (w.chmod p mode).2)

def mirrorStep (up loDir : Str) (acc : World × Widened) (sub : Str) : World × Widened :=
  let real := lowerMode acc.1.host loDir ((dirOf up).length - sub.length)
  let mode := real ||| 0o700
  let r := mkdirExact acc.1 sub mode
  (r.2, if r.1.isOk ∧ real ≠ mode then acc.2 ++ [(up.length - sub.length, real)] else acc.2)

def mirrorParentsFromLower (w : World) : World × Widened :=
  if dirOf up = [] then (w, [])
  else (cuts [] (dirOf up)).foldl (mirrorStep up (dirOf lo)) (w, [])

/-- The mode an upper copy is made with: what the lower has, plus the owner's access. -/
def copyMode (h : Host) (lo : Str) : Nat :=
  match h.stat lo with
  | .error _ => if isDir h lo then 0o755 else 0o644
  | .ok n => (n.mode &&& 0o7777) ||| (if isDir h lo then 0o700 else 0o600)

def copyLeaf (w : World) : World :=
  let mode := copyMode w.host lo
  if isDir w.host lo then (mkdirExact w up mode).2
  else
    match w.host.readFile lo with
    | .error _ => w
    | .ok data => (writeExact w up mode data).2

def copyUp (w : World) : World × Widened :=
  let (w, widened) := mirrorParentsFromLower up lo w
  if hostExists w.host up then (w, widened)
  else
    let widened :=
      match w.host.stat lo with
      | .error _ => widened
      | .ok n =>
        if copyMode w.host lo ≠ n.mode &&& 0o7777 then widened ++ [(0, n.mode &&& 0o7777)]
        else widened
    (copyLeaf up lo w, widened)

/-- The real modes of widened entries are recorded against their guest paths. -/
def recordWidened (abs : Str) (widened : Widened) (w : World) : World :=
  widened.foldl (fun w e =>
    if e.1 ≤ abs.length then w.setMetaMode (abs.take (abs.length - e.1)) e.2 none else w) w

@[simp] theorem recordWidened_host (abs : Str) (widened : Widened) (w : World) :
    (recordWidened abs widened w).host = w.host := by
  unfold recordWidened
  induction widened generalizing w with
  | nil => rfl
  | cons e widened ih =>
    rw [foldl_cons, ih]
    split_ifs <;> simp

theorem mkdirExact_files (p : Str) (mode : Nat) : w.FilesOnly (mkdirExact w p mode).2 := by
  have hm := World.FilesOnly.sys w (show HostOp.mkdir ∈ _ by decide) p false (·.mkdir p mode)
  unfold mkdirExact World.mkdir
  cases hr : w.host.mkdir p mode with
  | error e => rw [World.sys_of_error hr] at hm ⊢; exact hm
  | ok h =>
    rw [World.sys_of_ok hr] at hm ⊢; exact hm.trans (World.FilesOnly.sys _ (by decide) _ _ _)

theorem writeExact_files (p : Str) (mode : Nat) (data : Str) :
    w.FilesOnly (writeExact w p mode data).2 := by
  have hm :=
    World.FilesOnly.sys w (show HostOp.writeFile ∈ _ by decide) p true (·.writeFile p mode data)
  unfold writeExact World.writeFile
  cases hr : w.host.writeFile p mode data with
  | error e => rw [World.sys_of_error hr] at hm ⊢; exact hm
  | ok h =>
    rw [World.sys_of_ok hr] at hm ⊢; exact hm.trans (World.FilesOnly.sys _ (by decide) _ _ _)

theorem mirrorParents_files (w : World) : w.FilesOnly (mirrorParentsFromLower up lo w).1 := by
  unfold mirrorParentsFromLower
  split_ifs
  · rfl
  · exact World.FilesOnly.foldl (fun acc sub => mkdirExact_files acc.1 sub _) _ (w, [])

theorem copyLeaf_files (w : World) : w.FilesOnly (copyLeaf up lo w) := by
  unfold copyLeaf
  simp only
  split_ifs
  · exact mkdirExact_files w up _
  · split
    · rfl
    · exact writeExact_files w up _ _

theorem copyUp_files (w : World) : w.FilesOnly (copyUp up lo w).1 := by
  unfold copyUp
  simp only
  split_ifs
  · exact mirrorParents_files up lo w
  · exact (mirrorParents_files up lo w).trans (copyLeaf_files up lo _)

theorem recordWidened_files (abs : Str) (widened : Widened) (w : World) :
    w.FilesOnly (recordWidened abs widened w) := by
  unfold recordWidened
  induction widened generalizing w with
  | nil => rfl
  | cons e widened ih =>
    rw [foldl_cons]
    refine World.FilesOnly.trans ?_ (ih _)
    split_ifs
    · exact World.FilesOnly.setMetaMode w _ _ _
    · rfl

/-! ## What copying up can do to the host -/

theorem cuts_noSlash (acc : Str) {c : Str} (hc : '/' ∉ c) (rest : Str) :
    cuts acc (c ++ rest) = cuts (acc ++ c) rest := by
  induction c generalizing acc with
  | nil => simp
  | cons x c ih =>
    have hx : x ≠ '/' := fun h => hc (by simp [h])
    rw [cons_append, cuts, if_neg (by simp [hx]), ih _ fun h => hc (.tail _ h)]
    simp

theorem mem_cuts {acc : Str} (hacc : acc ≠ []) (hcs : ∀ c ∈ cs, '/' ∉ c) {sub : Str}
    (h : sub ∈ cuts acc (render cs)) : ∃ as, as <+: cs ∧ sub = acc ++ render as := by
  induction cs generalizing acc with
  | nil =>
    rw [render_nil, cuts, mem_singleton] at h
    exact ⟨[], nil_prefix, by simpa using h⟩
  | cons c cs ih =>
    rw [render_cons, cuts, if_pos ⟨rfl, hacc⟩, mem_cons, cuts_noSlash _ (hcs c (by simp))] at h
    rcases h with rfl | h
    · exact ⟨[], nil_prefix, by simp⟩
    · obtain ⟨as, ⟨t, rfl⟩, rfl⟩ := ih (by simp) (fun d hd => hcs d (.tail _ hd)) h
      exact ⟨c :: as, ⟨t, rfl⟩, by simp⟩

/-- The directories mirrored for a path are its proper prefixes below the root. -/
theorem mem_cuts_dirOf (hcs : ∀ c ∈ cs, IsName c) (h0 : dirOf (absPath cs) ≠ []) {sub : Str}
    (h : sub ∈ cuts [] (dirOf (absPath cs))) :
    ∃ as bs, cs = as ++ bs ∧ as ≠ [] ∧ bs ≠ [] ∧ sub = absPath as := by
  obtain rfl | ⟨ds, c, rfl⟩ := eq_nil_or_concat cs
  · exact absurd rfl h0
  · rw [concat_eq_append] at *
    have hc := hcs c (by simp)
    rw [absPath_of_ne_nil (by simp), render_snoc, dirOf_append _ hc.2.1] at h h0
    cases ds with
    | nil => exact absurd rfl h0
    | cons d ds =>
      rw [render_cons, cuts, if_neg (by simp), nil_append,
        cuts_noSlash _ (hcs d (by simp)).2.1] at h
      obtain ⟨as, ⟨t, rfl⟩, rfl⟩ := mem_cuts (by simp) (fun e he => (hcs e (by simp [he])).2.1) h
      refine ⟨d :: as, t ++ [c], by simp, by simp, by simp, ?_⟩
      rw [absPath_of_ne_nil (by simp)]
      simp

/-- Host `h'` is `h` with the first missing entry on the way to `cs` made, and perhaps more below
it. -/
def Made (h h' : Host) (cs : List Str) : Prop :=
  h' = h ∨
    (h.Grows h' ∧ ∃ as c dl, (as ++ [c]) <+: cs ∧ h.resolve (absPath as) true = .ok (.found dl) ∧
      h.node (dl ++ [c]) = none ∧ ∃ n, h'.node (dl ++ [c]) = some n ∧ n.isLink = false)

theorem Made.step {h₁ h₂ : Host} {bs : List Str} {l : Loc} {c : Str} {k : Kind} (hm : Made h h₁ cs)
    (hcs : ∀ c ∈ cs, IsName c) (hbs : bs <+: cs) (hk : ∀ t, k ≠ .link t)
    (hr : h₁.resolve (absPath bs) false = .ok (.free l c))
    (ha : h₁.Adds h₂ (l ++ [c]) k) : Made h h₂ cs := by
  have hgrow := ha.grows hk
  right
  rcases hm with rfl | ⟨hg, as, c', dl, h1, h2, h3, n, hn, hl⟩
  · -- the first entry made: everything above it was there
    refine ⟨hgrow, ?_⟩
    have hbsn : ∀ c ∈ bs, IsName c := fun c hc => hcs c (hbs.subset hc)
    rw [Host.resolve_absPath hbsn] at hr
    split_ifs at hr with hlen
    obtain rfl | ⟨as, e, rfl⟩ := eq_nil_or_concat bs
    · simp at hr
    · rw [concat_eq_append] at *
      obtain ⟨hw, rfl, _⟩ := Host.walk_false_snoc_free hr
      refine ⟨as, c, l, hbs, ?_, ha.fresh, ?_⟩
      · have := Host.length_absPath_le (prefix_append as [c])
        rw [Host.resolve_absPath fun d hd => hbsn d (mem_append_left _ hd), if_neg (by omega), hw]
      · obtain ⟨n, hn, hnk⟩ := ha.new
        refine ⟨n, hn, ?_⟩
        cases hkk : k with
        | link t => exact absurd hkk (hk t)
        | _ => simp [Node.isLink, hnk, hkk]
  · exact ⟨hg.trans hgrow, as, c', dl, h1, h2, h3, n, hgrow.le _ _ hn, hl⟩

theorem Made.eq_of_found {h' : Host} (hm : Made h h' cs) (hcs : ∀ c ∈ cs, IsName c)
    {l : Loc} (hr : h.resolve (absPath cs) f = .ok (.found l)) : h' = h := by
  rcases hm with rfl | ⟨_, as, c, dl, ⟨bs, rfl⟩, h1, hnone, _⟩
  · rfl
  · exfalso
    rw [append_assoc, singleton_append] at hr hcs
    obtain ⟨mid, k, h2, h3⟩ := Host.resolve_parent hcs (by simp) hr
    obtain rfl : mid = dl := by rw [h1] at h2; cases h2; rfl
    have hc := hcs c (by simp)
    have hlink : ∀ t, h.look mid c ≠ .ok (.link t) := by
      intro t hl
      obtain ⟨m, hm, -⟩ := Host.look_link hl
      simp [hnone] at hm
    cases Host.walk_eq_ok.1 h3 with
    | into hl =>
      obtain rfl := Host.look_into_name hc hl
      exact Host.look_into_node hl hnone
    | free _ hp => cases hp
    | last hl => exact hlink _ hl
    | follow hl => exact hlink _ hl

/-- What making an entry does to the host: nothing, or one new entry at a place that was free. -/
def MakesAt (h h' : Host) (s : Str) : Prop :=
  h' = h ∨ ∃ l c k, (∀ t, k ≠ Kind.link t) ∧ h.resolve s false = .ok (.free l c) ∧
    h.Adds h' (l ++ [c]) k

theorem chmod_host (s : Str) (mode : Nat) :
    (w.chmod s mode).2.host = w.host.orSame (w.host.chmod s mode) := by
  rw [World.chmod, World.sys_host]

/-- What an attempt to make an entry of this kind leaves. -/
def Attempt (h h' : Host) (s : Str) (k : Kind) (made : Bool) : Prop :=
  made = false ∧ h' = h ∨ made ∧ ∃ l c, h.resolve s false = .ok (.free l c) ∧ h.Adds h' (l ++ [c]) k

theorem Attempt.makesAt {h h' : Host} {s : Str} {k : Kind} {made : Bool}
    (ha : Attempt h h' s k made) (hk : ∀ t, k ≠ .link t) : MakesAt h h' s := by
  rcases ha with ⟨-, he⟩ | ⟨-, l, c, hf, ha⟩
  · exact .inl he
  · exact .inr ⟨l, c, k, hk, hf, ha⟩

theorem mkdirExact_attempt (s : Str) (mode : Nat) :
    Attempt w.host (mkdirExact w s mode).2.host s .dir (w.host.mkdir s mode).isOk := by
  unfold mkdirExact World.mkdir
  cases hr : w.host.mkdir s mode with
  | error e => rw [World.sys_of_error hr]; exact .inl ⟨rfl, rfl⟩
  | ok h₁ =>
    rw [World.sys_of_ok hr]
    refine .inr ⟨rfl, ?_⟩
    unfold Host.mkdir at hr
    split at hr
    · cases hr
    · cases hr
    · rename_i l c hf
      refine ⟨l, c, hf, ?_⟩
      rw [chmod_host]
      exact Host.create_chmod_adds (by simp) (Host.resolve_true_of_free hf) hr

theorem mkdirExact_makesAt (s : Str) (mode : Nat) : MakesAt w.host (mkdirExact w s mode).2.host s :=
  (mkdirExact_attempt w s mode).makesAt (by simp)

theorem resolve_of_not_exists {s : Str} (hx : hostExists h s = false) {p : Place}
    (hr : h.resolve s true = .ok p) :
    ∃ l c, p = .free l c ∧ h.resolve s false = .ok (.free l c) := by
  have hnf : ∀ l, h.resolve s false ≠ .ok (.found l) := by
    intro l hl
    obtain ⟨m, hm⟩ := Host.resolve_found_node hl
    simp [hostExists, nodeAnyLength, Host.nodeOf, hl, hm, Except.isOk, Except.toBool] at hx
  rcases Host.resolve_true_cases hr with h1 | ⟨l, _, h1, _⟩
  · cases p with
    | found l => exact absurd h1 (hnf l)
    | free l c => exact ⟨l, c, rfl, h1⟩
  · exact absurd h1 (hnf l)

theorem writeExact_attempt {w : World} {s : Str} (hx : hostExists w.host s = false) (mode : Nat)
    (data : Str) :
    Attempt w.host (writeExact w s mode data).2.host s (.file data)
      (w.host.writeFile s mode data).isOk := by
  unfold writeExact World.writeFile
  cases hr : w.host.writeFile s mode data with
  | error e => rw [World.sys_of_error hr]; exact .inl ⟨rfl, rfl⟩
  | ok h₁ =>
    rw [World.sys_of_ok hr]
    refine .inr ⟨rfl, ?_⟩
    unfold Host.writeFile at hr
    cases hp : w.host.resolve s true with
    | error e => simp [hp] at hr
    | ok p =>
      obtain ⟨l, c, rfl, hf⟩ := resolve_of_not_exists hx hp
      rw [hp] at hr
      refine ⟨l, c, hf, ?_⟩
      rw [chmod_host]
      exact Host.create_chmod_adds (by simp) hp hr

theorem copyLeaf_makesAt {w : World} {up : Str} (hx : hostExists w.host up = false) (lo : Str) :
    MakesAt w.host (copyLeaf up lo w).host up := by
  unfold copyLeaf
  simp only
  split_ifs
  · exact mkdirExact_makesAt w up _
  · split
    · exact .inl rfl
    · exact (writeExact_attempt hx _ _).makesAt (by simp)

theorem Made.makesAt {h₁ h₂ : Host} {bs : List Str} (hm : Made h h₁ cs) (hcs : ∀ c ∈ cs, IsName c)
    (hbs : bs <+: cs) (hk : MakesAt h₁ h₂ (absPath bs)) : Made h h₂ cs := by
  rcases hk with rfl | ⟨l, c, k, hk, hf, ha⟩
  · exact hm
  · exact hm.step hcs hbs hk hf ha

theorem mirrorParents_made (hcs : ∀ c ∈ cs, IsName c) (lo : Str) (w : World) :
    Made w.host (mirrorParentsFromLower (absPath cs) lo w).1.host cs := by
  unfold mirrorParentsFromLower
  split_ifs with h0
  · exact .inl rfl
  · -- every directory made is a prefix of the path
    have hsub : ∀ sub ∈ cuts [] (dirOf (absPath cs)), ∃ bs, bs <+: cs ∧ sub = absPath bs := by
      intro sub hsub
      obtain ⟨as, bs, rfl, _, _, rfl⟩ := mem_cuts_dirOf hcs h0 hsub
      exact ⟨as, prefix_append as bs, rfl⟩
    generalize cuts [] (dirOf (absPath cs)) = subs at hsub
    have hrun : ∀ acc : World × Widened, Made w.host acc.1.host cs →
        Made w.host (subs.foldl (mirrorStep (absPath cs) (dirOf lo)) acc).1.host cs := by
      induction subs with
      | nil => exact fun acc hacc => hacc
      | cons sub subs ih =>
        intro acc hacc
        obtain ⟨bs, hbs, rfl⟩ := hsub sub (by simp)
        refine ih (fun s hs => hsub s (.tail _ hs)) _ ?_
        exact hacc.makesAt hcs hbs (mkdirExact_makesAt acc.1 _ _)
    exact hrun (w, []) (.inl rfl)

theorem copyUp_made (hcs : ∀ c ∈ cs, IsName c) (lo : Str) (w : World) :
    Made w.host (copyUp (absPath cs) lo w).1.host cs := by
  have hmir := mirrorParents_made hcs lo w
  unfold copyUp
  simp only
  split_ifs with hx
  · exact hmir
  · exact hmir.makesAt hcs (prefix_refl cs) (copyLeaf_makesAt (by simpa using hx) lo)

end Linuxity.Kernel
