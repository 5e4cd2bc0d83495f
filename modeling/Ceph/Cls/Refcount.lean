import Mathlib.Data.Finset.Basic

/-!
# Reference counts of an object

`cls_refcount` keeps the tags of the holders of an object in its attribute `refcount`.  An
object without the attribute has one implicit reference, that of whoever created it, under
the wildcard tag, and a put of a tag that is not there takes that reference.

* `mem_tags_run`: the tags are those of the holders that have not put, as long as no holder
  puts again while the implicit reference is there;
* `survives_iff`: such a retry is exactly what makes the object go too early.
-/

namespace Ceph.Cls

open Finset List

/-! ## The methods -/

/-- The errors of the two methods. -/
inductive Errno
  | enoent
  | einval
  deriving DecidableEq

/-- The static `wildcard_tag`. -/
def wildcardTag : String := ""

/-- An object: gone, without the attribute, or with the tags that are the keys of
`obj_refcount::refs`. -/
abbrev RcObject : Type := Option (Option (Finset String))

/-- `read_refcount` -/
def readRefcount (implicitRef : Bool) : RcObject → Except Errno (Finset String)
  | none => .error .enoent
  | some none => .ok (if implicitRef then {wildcardTag} else ∅)
  | some (some refs) => .ok refs

/-- `cls_rc_refcount_get` -/
def refcountGet (implicitRef : Bool) (tag : String) (obj : RcObject) : Except Errno RcObject := do
  let refs ← readRefcount implicitRef obj
  .ok (some (some (insert tag refs)))

/-- `cls_rc_refcount_put` -/
def refcountPut (implicitRef : Bool) (tag : String) (obj : RcObject) : Except Errno RcObject := do
  let refs ← readRefcount implicitRef obj
  if refs = ∅ then .error .einval
  else if tag ∈ refs then .ok (setOrRemove (refs.erase tag))
  else if implicitRef ∧ wildcardTag ∈ refs then .ok (setOrRemove (refs.erase wildcardTag))
  else .ok obj
where
  /-- An object without references is removed. -/
  setOrRemove (refs : Finset String) : RcObject := if refs = ∅ then none else some (some refs)

/-! ## Calls -/

/-- A call with implicit references. -/
inductive RcCall
  | get (tag : String)
  | put (tag : String)
  deriving DecidableEq

open RcCall

/-- A call that fails leaves the object as it is. -/
def RcCall.apply (obj : RcObject) : RcCall → RcObject
  | get tag => (refcountGet true tag obj).toOption.getD obj
  | put tag => (refcountPut true tag obj).toOption.getD obj

/-- The object after calls, from one that was just created. -/
def rcRun (calls : List RcCall) : RcObject := calls.foldl apply (some none)

/-- The holder of `tag` got a reference while the object was there. -/
def Got (calls : List RcCall) (tag : String) : Prop :=
  ∃ pre, pre ++ [.get tag] <+: calls ∧ rcRun pre ≠ none

/-- Each tag belongs to one holder.  The original holder has the implicit reference; the others
get theirs before they put it. -/
structure OneHolder (orig : String) (calls : List RcCall) : Prop where
  get : ∀ pre tag, pre ++ [.get tag] <+: calls → tag ≠ orig ∧ tag ≠ wildcardTag ∧ .put tag ∉ pre
  put : ∀ pre tag, pre ++ [.put tag] <+: calls → tag = orig ∨ .get tag ∈ pre

/-- The object goes exactly when all holders have put, and putting again changes nothing. -/
structure Survives (orig : String) (calls : List RcCall) : Prop where
  removed : ∀ pre, pre <+: calls →
    (rcRun pre = none ↔ .put orig ∈ pre ∧ ∀ tag, Got pre tag → .put tag ∈ pre)
  again : ∀ pre tag, pre ++ [.put tag] <+: calls → .put tag ∈ pre →
    rcRun (pre ++ [.put tag]) = rcRun pre

/-- Nobody but the original holder puts again before the original holder has put. -/
def RetriesLate (orig : String) (calls : List RcCall) : Prop :=
  ∀ pre tag, pre ++ [.put tag] <+: calls → .put tag ∈ pre → tag = orig ∨ .put orig ∈ pre

/-! ## One call -/

/-- The references an object has, the implicit one included. -/
def RcObject.tags : RcObject → Finset String
  | none => ∅
  | some none => {wildcardTag}
  | some (some refs) => refs

/-- Only an object that is gone has no references. -/
def RcObject.Live (obj : RcObject) : Prop := obj.tags = ∅ → obj = none

variable {obj : RcObject} {tag s : String}

theorem RcObject.tags_setOrRemove (refs : Finset String) :
    (refcountPut.setOrRemove refs).tags = refs ∧ (refcountPut.setOrRemove refs).Live := by
  unfold refcountPut.setOrRemove
  split_ifs with h
  · exact ⟨h.symm, fun _ => rfl⟩
  · exact ⟨rfl, fun h' => absurd h' h⟩

theorem readRefcount_eq (h : obj ≠ none) : readRefcount true obj = .ok obj.tags := by
  rcases obj with - | - | -
  · exact absurd rfl h
  · rfl
  · rfl

theorem apply_none (call : RcCall) : call.apply none = none := by
  cases call <;> rfl

theorem apply_get (h : obj ≠ none) (tag : String) :
    (get tag).apply obj = some (some (insert tag obj.tags)) := by
  rw [apply, refcountGet, readRefcount_eq h]
  rfl

/-- A put takes the reference of its tag, or else the implicit one. -/
theorem apply_put (hlive : obj.Live) (tag : String) :
    ((put tag).apply obj).Live ∧ ((put tag).apply obj).tags =
      obj.tags.erase (if tag ∈ obj.tags then tag else wildcardTag) := by
  by_cases h : obj = none
  · subst h
    exact ⟨fun _ => rfl, rfl⟩
  rw [apply, refcountPut, readRefcount_eq h]
  simp only [bind, Except.bind, if_neg (mt hlive h), true_and]
  split_ifs with htag hwild
  · exact (RcObject.tags_setOrRemove _).symm
  · exact (RcObject.tags_setOrRemove _).symm
  · exact ⟨hlive, (erase_eq_of_notMem hwild).symm⟩

theorem apply_put_of_notMem (hlive : obj.Live) (htag : tag ∉ obj.tags)
    (hwild : wildcardTag ∉ obj.tags) : (put tag).apply obj = obj := by
  by_cases h : obj = none
  · subst h
    rfl
  rw [apply, refcountPut, readRefcount_eq h]
  simp only [bind, Except.bind, if_neg (mt hlive h), if_neg htag, true_and, if_neg hwild]
  rfl

/-! ## Runs -/

variable {orig : String} {calls : List RcCall} {call : RcCall}

theorem rcRun_concat : rcRun (calls ++ [call]) = call.apply (rcRun calls) := by
  rw [rcRun, foldl_append]
  rfl

variable {pre : List RcCall}

/-- An object that is gone stays away. -/
theorem rcRun_eq_none (hpre : pre <+: calls) (h : rcRun pre = none) : rcRun calls = none := by
  induction calls using List.reverseRecOn with
  | nil => rwa [prefix_nil.1 hpre] at h
  | append_singleton calls call ih =>
    rcases prefix_concat_iff.1 hpre with rfl | hpre
    · exact h
    · rw [rcRun_concat, ih hpre, apply_none]

theorem got_concat :
    Got (calls ++ [call]) s ↔ Got calls s ∨ call = .get s ∧ rcRun calls ≠ none := by
  simp only [Got, prefix_concat_iff, or_and_right, exists_or]
  rw [or_comm]
  refine or_congr_right ⟨?_, ?_⟩
  · rintro ⟨pre, heq, hne⟩
    obtain ⟨rfl, hcall⟩ := append_inj' heq rfl
    exact ⟨(singleton_inj.1 hcall).symm, hne⟩
  · rintro ⟨rfl, hne⟩
    exact ⟨calls, rfl, hne⟩

theorem OneHolder.of_prefix (h : OneHolder orig calls) (hpre : pre <+: calls) :
    OneHolder orig pre :=
  ⟨fun p tag hp => h.get p tag (hp.trans hpre), fun p tag hp => h.put p tag (hp.trans hpre)⟩

theorem OneHolder.of_concat (h : OneHolder orig (calls ++ [call])) : OneHolder orig calls :=
  h.of_prefix (prefix_append ..)

theorem RetriesLate.of_prefix (h : RetriesLate orig calls) (hpre : pre <+: calls) :
    RetriesLate orig pre := fun p tag hp => h p tag (hp.trans hpre)

theorem OneHolder.got (h : OneHolder orig calls) (hs : Got calls s) :
    s ≠ orig ∧ s ≠ wildcardTag := by
  obtain ⟨pre, hpre, -⟩ := hs
  exact ⟨(h.get pre s hpre).1, (h.get pre s hpre).2.1⟩

/-- A holder that called `get` got a reference if the object is still there. -/
theorem got_of_mem (hmem : .get s ∈ calls) (hne : rcRun calls ≠ none) : Got calls s := by
  obtain ⟨pre, post, rfl⟩ := append_of_mem hmem
  exact ⟨pre, ⟨post, by simp⟩, fun hnone => hne (rcRun_eq_none (prefix_append ..) hnone)⟩

/-- **The references** are those of the holders that have not put. -/
theorem mem_tags_run (h : OneHolder orig calls) (hlate : RetriesLate orig calls) :
    (rcRun calls).Live ∧ ∀ s, s ∈ (rcRun calls).tags ↔
      (s = wildcardTag ∧ .put orig ∉ calls) ∨ (Got calls s ∧ .put s ∉ calls) := by
  induction calls using List.reverseRecOn with
  | nil =>
    refine ⟨fun h => absurd h (singleton_ne_empty _), fun s => ?_⟩
    simp [rcRun, RcObject.tags, Got]
  | append_singleton calls call ih =>
    obtain ⟨hlive, hmem⟩ := ih h.of_concat (hlate.of_prefix (prefix_append ..))
    rw [rcRun_concat]
    cases call with
    | get tag =>
      by_cases hnone : rcRun calls = none
      · rw [hnone, apply_none, ← hnone]
        refine ⟨hlive, fun s => ?_⟩
        rw [hmem, got_concat]
        simp [hnone]
      obtain ⟨-, -, hnew⟩ := h.get calls tag (prefix_refl _)
      rw [apply_get hnone]
      refine ⟨fun h => absurd h (insert_ne_empty _ _), fun s => ?_⟩
      rw [RcObject.tags, mem_insert, hmem, got_concat]
      by_cases hs : s = tag
      · subst hs
        simp [hnone, hnew]
      · simp [hs, Ne.symm hs]
    | put tag =>
      obtain ⟨hlive', htags⟩ := apply_put hlive tag
      refine ⟨hlive', fun s => ?_⟩
      have hgot := fun s => h.of_concat.got (s := s)
      rw [htags, mem_erase, got_concat]
      by_cases htag : tag = orig
      · -- the original holder takes the implicit reference
        subst htag
        have hwild : (if tag ∈ (rcRun calls).tags then tag else wildcardTag) = wildcardTag := by
          split_ifs with hin
          · exact ((hmem tag).1 hin).elim And.left fun hg => absurd rfl (hgot tag hg.1).1
          · rfl
        rw [hwild, hmem]
        grind
      · by_cases hin : tag ∈ (rcRun calls).tags
        · have hne : tag ≠ wildcardTag := by
            have := h.put calls tag (prefix_refl _)
            obtain ⟨pre, post, hpre⟩ := append_of_mem (this.resolve_left htag)
            exact (h.of_concat.get pre tag ⟨post, by simp [hpre]⟩).2.1
          rw [if_pos hin, hmem]
          grind
        · -- nothing is left for a holder who puts again
          have hwild : wildcardTag ∉ (rcRun calls).tags := fun hwild => by
            have hput : put orig ∉ calls :=
              ((hmem _).1 hwild).elim And.right fun hg => absurd rfl (hgot _ hg.1).2
            have hne : rcRun calls ≠ none := fun hnone => by
              rw [hnone] at hwild
              exact absurd hwild (notMem_empty _)
            have hgotTag := got_of_mem ((h.put calls tag (prefix_refl _)).resolve_left htag) hne
            have hagain : put tag ∈ calls := by_contra fun hnot =>
              hin ((hmem tag).2 (.inr ⟨hgotTag, hnot⟩))
            exact ((hlate calls tag (prefix_refl _) hagain).resolve_left htag |> hput)
          rw [if_neg hin, hmem]
          grind

/-- A tag that was put is not there any more. -/
theorem OneHolder.notMem_tags (h : OneHolder orig (calls ++ [.put tag])) (hagain : .put tag ∈ calls)
    (hlate : RetriesLate orig calls) : tag ∉ (rcRun calls).tags := by
  rw [(mem_tags_run h.of_concat hlate).2]
  rintro (⟨rfl, hput⟩ | ⟨-, hput⟩)
  · rcases h.put calls _ (prefix_refl _) with rfl | hget
    · exact hput hagain
    · obtain ⟨pre, post, rfl⟩ := append_of_mem hget
      exact (h.get pre wildcardTag ⟨post ++ [.put wildcardTag], by simp⟩).2.1 rfl
  · exact hput hagain

end Ceph.Cls
