import Mathlib.Data.List.Basic
import Mathlib.Data.List.Induction

/-!
# A map and the index over its values

Objects have keys, and an index is meant to find the object that has a key.  Updates
change both, and change the index at a key without looking whose key it is.  Two things
can go wrong: an object loses its entry of the index (`Lost`), or an entry is left for
a key its object no longer has (`Stale`).  After any sequence of updates, both are read
off the keys alone (`inverse_run_iff`).
-/

namespace Ceph.InverseIndex

open List Option Function

/-- The keys of the objects, and the index from keys to objects. -/
@[ext]
structure State (O K : Type*) where
  key : O → Option K
  owner : K → Option O

/-- An update of the key of an object. -/
inductive Update (O K : Type*) where
  /-- The object gets a key, and its old key is erased from the index. -/
  | put (o : O) (k : K)
  /-- The object gets a key, and its old key stays in the index. -/
  | add (o : O) (k : K)
  /-- The object loses its key. -/
  | remove (o : O)

variable {O K : Type*}

/-- The object whose key is changed. -/
def Update.object : Update O K → O
  | .put o _ => o
  | .add o _ => o
  | .remove o => o

/-- The index is the inverse of the keys. -/
def Inverse (s : State O K) : Prop := ∀ k o, s.owner k = some o ↔ s.key o = some k

/-- The index is changed at the key. -/
def Touches (s : State O K) : Update O K → K → Prop
  | .put o k', k => k = k' ∨ s.key o = some k
  | .add _ k', k => k = k'
  | .remove o, k => s.key o = some k

variable [DecidableEq O] [DecidableEq K]

/-- The index without the key of an object. -/
def State.dropKey (s : State O K) (o : O) : K → Option O :=
  match s.key o with
  | some k => update s.owner k none
  | none => s.owner

def State.apply (s : State O K) : Update O K → State O K
  | .put o k =>
    { key := update s.key o (some k)
      owner := update (s.dropKey o) k (some o) }
  | .add o k =>
    { key := update s.key o (some k), owner := update s.owner k (some o) }
  | .remove o => { key := update s.key o none, owner := s.dropKey o }

def State.run (s : State O K) (us : List (Update O K)) : State O K := us.foldl State.apply s

@[simp] theorem State.run_nil (s : State O K) : s.run [] = s := rfl

theorem State.run_append (s : State O K) (us vs : List (Update O K)) :
    s.run (us ++ vs) = (s.run us).run vs := foldl_append ..

theorem State.run_concat (s : State O K) (us : List (Update O K)) (u : Update O K) :
    s.run (us ++ [u]) = (s.run us).apply u := s.run_append us [u]

/-! ## One update -/

variable {u : Update O K}

section

variable (s : State O K)

include s

theorem State.key_apply_of_ne {o : O} (h : o ≠ u.object) : (s.apply u).key o = s.key o := by
  cases u <;> exact update_of_ne h _ _

omit [DecidableEq O] in
theorem State.dropKey_apply (o : O) (k : K) :
    s.dropKey o k = if s.key o = some k then none else s.owner k := by
  unfold State.dropKey
  cases hk : s.key o with
  | none => simp
  | some k' =>
    by_cases h : k = k'
    · subst h; simp
    · simp [update_of_ne h, Ne.symm h]

/-- An untouched key keeps its owner. -/
theorem State.owner_apply_of_not_touches {k : K} (h : ¬ Touches s u k) :
    (s.apply u).owner k = s.owner k := by
  cases u with
  | put o k' =>
    obtain ⟨hk, ho⟩ := not_or.1 h
    change update (s.dropKey o) k' (some o) k = s.owner k
    rw [update_of_ne hk, s.dropKey_apply, if_neg ho]
  | add o k' => exact update_of_ne h _ _
  | remove o =>
    have ho : ¬ s.key o = some k := h
    change s.dropKey o k = s.owner k
    rw [s.dropKey_apply, if_neg ho]

/-- A touched key belongs to the object of the update, or to none. -/
theorem State.owner_apply_of_touches {k : K} (h : Touches s u k) : (s.apply u).owner k = none ∨
      (s.apply u).owner k = some u.object ∧ (s.apply u).key u.object = some k := by
  cases u with
  | put o k' =>
    by_cases hk : k = k'
    · subst hk
      exact .inr ⟨update_self .., update_self ..⟩
    · left
      change update (s.dropKey o) k' (some o) k = none
      rw [update_of_ne hk, s.dropKey_apply, if_pos (h.resolve_left hk)]
  | add o k' =>
    obtain rfl : k = k' := h
    exact .inr ⟨update_self .., update_self ..⟩
  | remove o =>
    have ho : s.key o = some k := h
    left
    change s.dropKey o k = none
    rw [s.dropKey_apply, if_pos ho]

/-- The key that an update gives its object is touched, and the index finds the object there. -/
theorem State.of_key_object {k : K} (h : (s.apply u).key u.object = some k) :
    Touches s u k ∧ (s.apply u).owner k = some u.object := by
  cases u with
  | put o k' =>
    change update s.key o (some k') o = some k at h
    rw [update_self, some_inj] at h
    exact ⟨.inl h.symm, h ▸ update_self ..⟩
  | add o k' =>
    change update s.key o (some k') o = some k at h
    rw [update_self, some_inj] at h
    exact ⟨h.symm, h ▸ update_self ..⟩
  | remove o =>
    change update s.key o none o = some k at h
    rw [update_self] at h
    cases h

/-! ## What can go wrong -/

/-- The index does not find the object under its key. -/
def Lost (s : State O K) (o : O) : Prop := ∃ k, s.key o = some k ∧ s.owner k ≠ some o

/-- The index finds an object that does not have the key. -/
def Stale (s : State O K) (k : K) : Prop := ∃ o, s.owner k = some o ∧ s.key o ≠ some k

omit [DecidableEq O] [DecidableEq K] in
theorem inverse_iff : Inverse s ↔ (∀ o, ¬ Lost s o) ∧ ∀ k, ¬ Stale s k := by
  constructor
  · intro h
    refine ⟨?_, ?_⟩
    · rintro o ⟨k, hk, ho⟩
      exact ho ((h k o).2 hk)
    · rintro k ⟨o, ho, hk⟩
      exact hk ((h k o).1 ho)
  · rintro ⟨hlost, hstale⟩ k o
    constructor
    · intro ho
      by_contra hk
      exact hstale k ⟨o, ho, hk⟩
    · intro hk
      by_contra ho
      exact hlost o ⟨k, hk, ho⟩

/-- The object of an update is not lost, and another one is if its key is touched. -/
theorem lost_apply (u : Update O K) (o : O) :
    Lost (s.apply u) o ↔ o ≠ u.object ∧ (Lost s o ∨ ∃ k, s.key o = some k ∧ Touches s u k) := by
  by_cases ho : o = u.object
  · subst ho
    refine iff_of_false ?_ fun h => h.1 rfl
    rintro ⟨k, hk, hne⟩
    exact hne (s.of_key_object hk).2
  · unfold Lost
    rw [s.key_apply_of_ne ho, and_iff_right ho, ← exists_or]
    refine exists_congr fun k => ?_
    rw [← and_or_left]
    refine and_congr_right fun _ => ?_
    by_cases ht : Touches s u k
    · refine iff_of_true ?_ (.inr ht)
      rcases s.owner_apply_of_touches ht with h | ⟨h, -⟩ <;> rw [h]
      · simp
      · simpa using Ne.symm ho
    · rw [s.owner_apply_of_not_touches ht]
      exact ⟨.inl, fun h => h.resolve_right ht⟩

/-- A touched key is not stale, and an untouched one becomes stale if its owner is
added with another key. -/
theorem stale_apply (u : Update O K) (k : K) : Stale (s.apply u) k ↔ ¬ Touches s u k ∧
        (Stale s k ∨ ∃ o k', u = .add o k' ∧ s.key o = some k ∧ s.owner k = some o) := by
  by_cases ht : Touches s u k
  · refine iff_of_false ?_ fun h => h.1 ht
    rintro ⟨o, ho, hk⟩
    rcases s.owner_apply_of_touches ht with h | ⟨h, hkey⟩
    · rw [h] at ho; cases ho
    · obtain rfl : u.object = o := some_inj.1 (h.symm.trans ho)
      exact hk hkey
  · unfold Stale
    rw [s.owner_apply_of_not_touches ht, and_iff_right ht]
    constructor
    · rintro ⟨o, ho, hk⟩
      by_cases hkey : s.key o = some k
      · right
        -- only the object of the update has another key than before
        have hobj : o = u.object := by
          by_contra hne
          exact hk ((s.key_apply_of_ne hne).trans hkey)
        subst hobj
        cases u with
        | put o' k' => exact absurd (.inr hkey) ht
        | add o' k' => exact ⟨o', k', rfl, hkey, ho⟩
        | remove o' => exact absurd hkey ht
      · exact .inl ⟨o, ho, hkey⟩
    · rintro (⟨o, ho, hk⟩ | ⟨o, k', rfl, hkey, ho⟩)
      · refine ⟨o, ho, fun hkey => ?_⟩
        by_cases hobj : o = u.object
        · subst hobj
          exact ht (s.of_key_object hkey).1
        · exact hk ((s.key_apply_of_ne hobj).symm.trans hkey)
      · refine ⟨o, ho, ?_⟩
        have : (s.apply (.add o k')).key o = some k' := update_self ..
        rw [this]
        exact fun h => ht (some_inj.1 h).symm

end

/-! ## Sequences of updates -/

/-- Another object was put on, or taken off, the key of the object, which was not
updated since. -/
def Clashed (s : State O K) (us : List (Update O K)) (o : O) : Prop :=
  ∃ pre u post, us = pre ++ u :: post ∧ u.object ≠ o ∧
    (∃ k, (s.run pre).key o = some k ∧ Touches (s.run pre) u k) ∧ ∀ u' ∈ post, u'.object ≠ o

/-- An object that had the key and had not clashed was added with another one, and the
key was not touched since. -/
def LeftBehind (s : State O K) (us : List (Update O K)) (k : K) : Prop :=
  ∃ pre o k' post, us = pre ++ .add o k' :: post ∧ (s.run pre).key o = some k ∧ k ≠ k' ∧
    ¬ Clashed s pre o ∧ ∀ a u b, post = a ++ u :: b → ¬ Touches (s.run (pre ++ .add o k' :: a)) u k

omit [DecidableEq O] [DecidableEq K] in
theorem concat_eq_append_cons {α : Type*} {us pre post : List α} {u v : α} :
    us ++ [u] = pre ++ v :: post ↔
      (us = pre ∧ u = v ∧ post = []) ∨ ∃ post', post = post' ++ [u] ∧ us = pre ++ v :: post' := by
  rcases eq_nil_or_concat post with rfl | ⟨post', w, rfl⟩
  · simp
  rw [concat_eq_append, ← cons_append, ← append_assoc, append_singleton_inj]
  constructor
  · rintro ⟨rfl, rfl⟩
    exact .inr ⟨post', rfl, rfl⟩
  · rintro (⟨-, -, h⟩ | ⟨post'', h, rfl⟩)
    · simp at h
    · obtain ⟨rfl, rfl⟩ := append_singleton_inj.1 h
      exact ⟨rfl, rfl⟩

variable {s : State O K}

theorem not_clashed_nil (o : O) : ¬ Clashed s [] o := by
  rintro ⟨pre, u, post, heq, -⟩
  simp at heq

theorem not_leftBehind_nil (k : K) : ¬ LeftBehind s [] k := by
  rintro ⟨pre, o, k', post, heq, -⟩
  simp at heq

theorem clashed_concat {us : List (Update O K)} {o : O} : Clashed s (us ++ [u]) o ↔ o ≠ u.object ∧
        (Clashed s us o ∨ ∃ k, (s.run us).key o = some k ∧ Touches (s.run us) u k) := by
  constructor
  · rintro ⟨pre, v, post, heq, hne, hk, hpost⟩
    rcases concat_eq_append_cons.1 heq with ⟨rfl, rfl, rfl⟩ | ⟨post', rfl, rfl⟩
    · exact ⟨hne.symm, .inr hk⟩
    · refine ⟨(hpost u (by simp)).symm, .inl ⟨pre, v, post', rfl, hne, hk, fun u' hu' => ?_⟩⟩
      exact hpost u' (mem_append_left _ hu')
  · rintro ⟨hne, ⟨pre, v, post, rfl, hv, hk, hpost⟩ | hk⟩
    · refine ⟨pre, v, post ++ [u], by simp, hv, hk, fun u' hu' => ?_⟩
      rcases mem_append.1 hu' with hu' | hu'
      · exact hpost u' hu'
      · rw [mem_singleton.1 hu']
        exact hne.symm
    · exact ⟨us, u, [], rfl, hne.symm, hk, by simp⟩

theorem leftBehind_concat {us : List (Update O K)} {k : K} :
    LeftBehind s (us ++ [u]) k ↔ ¬ Touches (s.run us) u k ∧
        (LeftBehind s us k ∨ ∃ o k', u = .add o k' ∧ (s.run us).key o = some k ∧
          ¬ Clashed s us o) := by
  constructor
  · rintro ⟨pre, o, k', post, heq, hkey, hne, hclash, hpost⟩
    rcases concat_eq_append_cons.1 heq with ⟨rfl, rfl, rfl⟩ | ⟨post', rfl, rfl⟩
    · exact ⟨hne, .inr ⟨o, k', rfl, hkey, hclash⟩⟩
    · refine ⟨hpost post' u [] rfl, .inl ⟨pre, o, k', post', rfl, hkey, hne, hclash, ?_⟩⟩
      intro a v b hab
      exact hpost a v (b ++ [u]) (by rw [hab]; simp)
  · rintro ⟨ht, ⟨pre, o, k', post, rfl, hkey, hne, hclash, hpost⟩ | ⟨o, k', rfl, hkey, hclash⟩⟩
    · refine ⟨pre, o, k', post ++ [u], by simp, hkey, hne, hclash, fun a v b hab => ?_⟩
      rcases concat_eq_append_cons.1 hab with ⟨rfl, rfl, rfl⟩ | ⟨b', rfl, hab'⟩
      · exact ht
      · exact hpost a v b' hab'
    · refine ⟨us, o, k', [], rfl, hkey, ht, hclash, fun a v b hab => ?_⟩
      simp at hab

theorem lost_run_iff {o : O} (h : ¬ Lost s o) (us : List (Update O K)) :
    Lost (s.run us) o ↔ Clashed s us o := by
  induction us using List.reverseRecOn with
  | nil => exact iff_of_false h (not_clashed_nil o)
  | append_singleton us u ih => rw [State.run_concat, lost_apply, clashed_concat, ih]

theorem stale_run_iff (h : Inverse s) (us : List (Update O K)) (k : K) :
    Stale (s.run us) k ↔ LeftBehind s us k := by
  obtain ⟨hlost, hstale⟩ := (inverse_iff s).1 h
  induction us using List.reverseRecOn with
  | nil => exact iff_of_false (hstale k) (not_leftBehind_nil k)
  | append_singleton us u ih =>
    rw [State.run_concat, stale_apply, leftBehind_concat, ih]
    refine and_congr_right fun _ => or_congr_right ?_
    refine exists₂_congr fun o k' => and_congr_right fun _ => and_congr_right fun hkey => ?_
    -- an object that is not lost owns its key
    rw [← lost_run_iff (hlost o) us]
    constructor
    · rintro ho ⟨k'', hkey', hne⟩
      obtain rfl : k = k'' := some_inj.1 (hkey.symm.trans hkey')
      exact hne ho
    · intro hnot
      by_contra hne
      exact hnot ⟨k, hkey, hne⟩

/-- **When the index is still the inverse.**  No object has clashed, and no key is left
behind. -/
theorem inverse_run_iff (h : Inverse s) (us : List (Update O K)) :
    Inverse (s.run us) ↔ (∀ o, ¬ Clashed s us o) ∧ ∀ k, ¬ LeftBehind s us k := by
  rw [inverse_iff]
  refine and_congr (forall_congr' fun o => not_congr ?_) (forall_congr' fun k => not_congr ?_)
  · exact lost_run_iff (((inverse_iff s).1 h).1 o) us
  · exact stale_run_iff h us k

end Ceph.InverseIndex
