import Linuxity.Posix.Path

/-!
# Wire.Path — guest path normalization (`abi/wire/path.hpp`)

Textual only: `.` and `..` are collapsed without looking at any file system.
-/

namespace Linuxity.Wire

open Posix

/-- One component of the scan in `normalize_path`, on the components kept so far. -/
def normalizeStep (out : List Str) (comp : Str) : List Str :=
  if comp = dot then out
  else if comp = dotdot then out.dropLast
  else out ++ [comp]

def normalizePath (p : Str) : Str := absPath ((comps p).foldl normalizeStep [])

/-- `absolutize_path`: the empty path is the directory itself. -/
def absolutizePath (path cwd : Str) : Str :=
  if path = [] then normalizePath cwd
  else if isAbs path then normalizePath path
  else normalizePath ((if cwd ≠ [] ∧ cwd.getLast? ≠ some '/' then cwd ++ ['/'] else cwd) ++ path)

theorem isName_of_mem_foldl {cs out : List Str} (hcs : ∀ c ∈ cs, c ≠ [] ∧ '/' ∉ c)
    (hout : ∀ c ∈ out, IsName c) : ∀ c ∈ cs.foldl normalizeStep out, IsName c := by
  induction cs generalizing out with
  | nil => exact hout
  | cons d cs ih =>
    refine ih (fun c hc => hcs c (.tail _ hc)) ?_
    have hd := hcs d (by simp)
    intro c hc
    unfold normalizeStep at hc
    split_ifs at hc with h1 h2
    · exact hout c hc
    · exact hout c (List.mem_of_mem_dropLast hc)
    · rcases List.mem_append.1 hc with hc | hc
      · exact hout c hc
      · rw [List.mem_singleton.1 hc]
        exact ⟨hd.1, hd.2, h1, h2⟩

theorem normalizePath_normal (p : Str) : Normal (normalizePath p) :=
  normal_absPath
    (isName_of_mem_foldl (fun _ hc => ⟨ne_nil_of_mem_comps hc, noSlash_of_mem_comps hc⟩) (by simp))

theorem foldl_normalizeStep {cs : List Str} (hcs : ∀ c ∈ cs, IsName c) (out : List Str) :
    cs.foldl normalizeStep out = out ++ cs := by
  induction cs generalizing out with
  | nil => simp
  | cons c cs ih =>
    have hc := hcs c (by simp)
    rw [List.foldl_cons, ih fun d hd => hcs d (.tail _ hd)]
    simp [normalizeStep, hc.2.2.1, hc.2.2.2]

/-- The normal paths are the fixed points of normalization. -/
theorem normalizePath_eq_self_iff {p : Str} : normalizePath p = p ↔ Normal p := by
  constructor
  · intro h
    rw [← h]
    exact normalizePath_normal p
  · intro h
    rw [normalizePath, foldl_normalizeStep (fun _ hc => h.isName hc), List.nil_append,
      h.absPath_comps]

example : normalizePath "/a/./b//../../.." = "/" := by decide

end Linuxity.Wire
