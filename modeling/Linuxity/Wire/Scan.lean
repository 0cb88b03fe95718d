import Linuxity.Wire.Path
import Mathlib.Data.List.TakeWhile

/-!
# Wire.Scan — the text algorithms behind normalization (`abi/wire/path.hpp`)

`normalize_path` never builds a list of components.  It scans the text and edits its result in
place: `..` cuts the result off at its last slash.  Here the scan and the edits are as they are
written, and `normalizeText_eq` says that they compute what `normalizePath` says.
-/

namespace Linuxity.Wire

open Posix List

variable {α : Type}

/-- The scan: skip slashes, take the run up to the next slash, act on it.  The fuel is the length
of what is left. -/
def scan (act : α → Str → α) : Nat → Str → α → α
  | 0, _, out => out
  | fuel + 1, rest, out =>
    if rest = [] then out
    else
      let rest := rest.dropWhile (· == '/')
      let comp := rest.takeWhile (· != '/')
      scan act fuel (rest.dropWhile (· != '/')) (if comp = [] then out else act out comp)

/-- `rfind('/')` of a text that has a slash. -/
def lastSlash (s : Str) : Nat := (dirOf s).length

/-- What the scan of `normalize_path` does to its result at one component. -/
def editStep (out comp : Str) : Str :=
  if comp = dot then out
  else if comp = dotdot then
    if 1 < out.length then out.take (if lastSlash out = 0 then 1 else lastSlash out) else out
  else (if 1 < out.length then out ++ ['/'] else out) ++ comp

/-- `normalize_path`. -/
def normalizeText (p : Str) : Str :=
  let out := scan editStep p.length p ['/']
  if 1 < out.length ∧ out.getLast? = some '/' then out.dropLast else out

/-! ## The scan sees the components -/

theorem comps_dropWhile_slash (s : Str) : comps (s.dropWhile (· == '/')) = comps s := by
  induction s with
  | nil => rfl
  | cons c s ih =>
    by_cases hc : c = '/'
    · subst hc
      rw [dropWhile_cons_of_pos (by simp), ih, comps_slash]
    · rw [dropWhile_cons_of_neg (by simpa using hc)]

theorem comps_run {s : Str} (h0 : s ≠ []) (hs : s.head? ≠ some '/') : s.takeWhile (· != '/') ≠ [] ∧
    comps s = s.takeWhile (· != '/') :: comps (s.dropWhile (· != '/')) := by
  have hrun : '/' ∉ s.takeWhile (· != '/') := fun h => by simpa using mem_takeWhile_imp h
  have hne : s.takeWhile (· != '/') ≠ [] := by
    rcases s with _ | ⟨c, s⟩
    · exact absurd rfl h0
    · have hc : c ≠ '/' := by simpa using hs
      rw [takeWhile_cons_of_pos (by simpa using hc)]
      exact cons_ne_nil _ _
  refine ⟨hne, ?_⟩
  have hsplit := takeWhile_append_dropWhile (p := (· != '/')) (l := s)
  rcases hd : s.dropWhile (· != '/') with _ | ⟨c, t⟩
  · rw [hd, append_nil] at hsplit
    rw [comps_nil, ← comps_of_noSlash hrun hne, hsplit]
  · -- what the run ends at is a slash
    have hc : c = '/' := by
      have := head_dropWhile_not (· != '/') (l := s) (by rw [hd]; exact cons_ne_nil _ _)
      simpa [hd] using this
    subst hc
    rw [hd] at hsplit
    rw [comps_slash, ← singleton_append, ← comps_of_noSlash hrun hne, ← comps_append_slash, hsplit]

/-- With fuel for the whole text, the scan goes through its components in order. -/
theorem scan_eq (act : α → Str → α) {fuel : Nat} {rest : Str} (hf : rest.length ≤ fuel) (out : α) :
    scan act fuel rest out = (comps rest).foldl act out := by
  induction fuel generalizing rest out with
  | zero =>
    obtain rfl := eq_nil_of_length_eq_zero (Nat.le_zero.1 hf)
    simp [scan]
  | succ fuel ih =>
    unfold scan
    split_ifs with h0
    · simp [h0]
    · rw [← comps_dropWhile_slash rest]
      have hle : (rest.dropWhile (· == '/')).length ≤ rest.length := (dropWhile_sublist _).length_le
      have hhd : (rest.dropWhile (· == '/')).head? ≠ some '/' := by
        intro h
        simpa [h] using List.head?_dropWhile_not (· == '/') rest
      generalize rest.dropWhile (· == '/') = r at hle hhd ⊢
      dsimp only
      by_cases hr : r = []
      · subst hr
        cases fuel <;> simp [scan]
      · obtain ⟨hne, hcomps⟩ := comps_run hr hhd
        have hlt : (r.dropWhile (· != '/')).length < r.length := by
          have := congrArg List.length (takeWhile_append_dropWhile (p := (· != '/')) (l := r))
          rw [length_append] at this
          have := length_pos_iff.2 hne
          omega
        rw [if_neg hne, ih (by omega), hcomps, foldl_cons]

/-! ## The edits keep a path written out -/

theorem length_absPath_pos {cs : List Str} (h : cs ≠ []) (hcs : ∀ c ∈ cs, IsName c) :
    1 < (absPath cs).length := by
  obtain ⟨c, cs, rfl⟩ := exists_cons_of_ne_nil h
  have := length_pos_iff.2 (hcs c (by simp)).1
  rw [absPath_of_ne_nil h, render_cons, length_cons, length_append]
  omega

theorem editStep_absPath {cs : List Str} (hcs : ∀ c ∈ cs, IsName c) {c : Str} :
    editStep (absPath cs) c = absPath (normalizeStep cs c) := by
  unfold editStep normalizeStep
  split_ifs with h1 h2 h3 h4 h5
  · rfl
  · -- `..` with one component left: only the root's slash stays
    obtain rfl | ⟨ds, d, rfl⟩ := eq_nil_or_concat cs
    · simp at h3
    · rw [concat_eq_append] at *
      have hd := hcs d (by simp)
      rw [absPath_of_ne_nil (by simp), render_snoc] at h4 ⊢
      rw [lastSlash, dirOf_append _ hd.2.1] at h4
      obtain rfl : ds = [] := by
        rcases ds with _ | ⟨e, ds⟩
        · rfl
        · simp at h4
      simp
  · obtain rfl | ⟨ds, d, rfl⟩ := eq_nil_or_concat cs
    · simp at h3
    · rw [concat_eq_append] at *
      have hd := hcs d (by simp)
      rw [absPath_of_ne_nil (by simp), render_snoc] at h4 ⊢
      rw [lastSlash, dirOf_append _ hd.2.1] at h4 ⊢
      have hds : ds ≠ [] := by
        rintro rfl
        exact h4 rfl
      rw [take_left, dropLast_concat, absPath_of_ne_nil hds]
  · obtain rfl : cs = [] := by
      by_contra hne
      exact h3 (length_absPath_pos hne hcs)
    rfl
  · have hne : cs ≠ [] := by
      rintro rfl
      simp at h5
    rw [absPath_of_ne_nil hne, absPath_of_ne_nil (by simp), render_snoc]
    simp
  · obtain rfl : cs = [] := by
      by_contra hne
      exact h5 (length_absPath_pos hne hcs)
    simp [absPath]

theorem isName_normalizeStep {cs : List Str} (hcs : ∀ c ∈ cs, IsName c) {c : Str}
    (hc : c ≠ [] ∧ '/' ∉ c) : ∀ d ∈ normalizeStep cs c, IsName d :=
  @isName_of_mem_foldl [c] cs (by simpa using hc) hcs

theorem foldl_editStep {cs : List Str} (hcs : ∀ c ∈ cs, IsName c) {ds : List Str}
    (hds : ∀ c ∈ ds, c ≠ [] ∧ '/' ∉ c) :
    ds.foldl editStep (absPath cs) = absPath (ds.foldl normalizeStep cs) := by
  induction ds generalizing cs with
  | nil => rfl
  | cons d ds ih =>
    rw [foldl_cons, foldl_cons, editStep_absPath hcs,
      ih (isName_normalizeStep hcs (hds d (by simp))) fun c hc => hds c (mem_cons_of_mem _ hc)]

/-- A path written out ends with no slash, but for the root. -/
theorem getLast?_absPath {cs : List Str} (hcs : ∀ c ∈ cs, IsName c) (h : 1 < (absPath cs).length) :
    (absPath cs).getLast? ≠ some '/' := by
  obtain rfl | ⟨ds, d, rfl⟩ := eq_nil_or_concat cs
  · simp at h
  · rw [concat_eq_append] at *
    have hd := hcs d (by simp)
    rw [absPath_of_ne_nil (by simp), render_snoc,
      List.getLast?_append_of_ne_nil _ (cons_ne_nil _ _), List.getLast?_cons_of_ne_nil hd.1]
    intro hl
    exact hd.2.1 (mem_of_getLast? hl)

/-- The text algorithm computes the component stack. -/
theorem normalizeText_eq (p : Str) : normalizeText p = normalizePath p := by
  have hcs : ∀ c ∈ comps p, c ≠ [] ∧ '/' ∉ c :=
    fun _ hc => ⟨ne_nil_of_mem_comps hc, noSlash_of_mem_comps hc⟩
  have hscan : scan editStep p.length p ['/'] = normalizePath p := by
    rw [scan_eq editStep le_rfl]
    exact @foldl_editStep [] (by simp) _ hcs
  have hname := @isName_of_mem_foldl _ [] hcs (by simp)
  unfold normalizeText
  rw [hscan]
  rw [if_neg fun h => getLast?_absPath hname h.1 h.2]

end Linuxity.Wire
