import Mathlib.Data.List.Forall2

/-!
# Rules for loops and assertions

Loops of the modelled programs are folds: over a list (an iteration over a
container), or over `List.range n` (a counted loop), pure or in `Option` when an
iteration can fail.  The rules below prove what a whole loop does from what one
iteration does.  The invariant speaks of the part of the list already consumed.

An assertion of a program is a step in `Option` that fails when it does not
hold.
-/

universe u v

namespace Ceph

open Option

/-! ## What a run gives -/

section

variable {α β : Type u} {ok : Prop} {P : α → Prop} {Q : β → Prop} {o : Option α}

/-- The run does not fail if `ok`, and where it does not fail its result has the property. -/
def Gives (ok : Prop) (P : α → Prop) (o : Option α) : Prop :=
  (ok → o.isSome) ∧ ∀ a, o = some a → P a

theorem Gives.exists (h : Gives True P o) : ∃ a, o = some a ∧ P a := by
  obtain ⟨a, ha⟩ := isSome_iff_exists.1 (h.1 trivial)
  exact ⟨a, ha, h.2 a ha⟩

theorem Gives.of_exists (h : ∃ a, o = some a ∧ P a) : Gives ok P o := by
  obtain ⟨a, rfl, ha⟩ := h
  exact ⟨fun _ => rfl, fun _ heq => some_inj.1 heq ▸ ha⟩

theorem Gives.some {a : α} (h : P a) : Gives ok P (some a) := .of_exists ⟨a, rfl, h⟩

theorem Gives.none (h : ¬ ok) : Gives ok P none := ⟨fun hok => absurd hok h, nofun⟩

theorem Gives.imp {P' : α → Prop} (h : Gives ok P o) (himp : ∀ a, P a → P' a) : Gives ok P' o :=
  ⟨h.1, fun a ha => himp a (h.2 a ha)⟩

theorem Gives.bind {f : α → Option β} (h : Gives ok P o) (hf : ∀ a, P a → Gives ok Q (f a)) :
    Gives ok Q (o >>= f) := by
  cases o with
  | none => exact .none fun hok => Bool.noConfusion (h.1 hok)
  | some a => exact hf a (h.2 a rfl)

end

end Ceph

namespace Ceph.Loop

open List Option

variable {α : Type u} {β : Type v} {l : List α} {b : β} (Inv : List α → β → Prop)

/-- A fallible loop over a list keeps its invariant. -/
theorem foldlM_gives {f : β → α → Option β} {ok : Prop} (hinit : Inv [] b)
    (hstep : ∀ pre x post acc, l = pre ++ x :: post → Inv pre acc →
      Gives ok (Inv (pre ++ [x])) (f acc x)) : Gives ok (Inv l) (l.foldlM f b) := by
  suffices h : ∀ (post pre : List α) (acc : β), l = pre ++ post → Inv pre acc →
      Gives ok (Inv l) (post.foldlM f acc) from h l [] b rfl hinit
  intro post
  induction post with
  | nil =>
    intro pre acc hl hinv
    rw [append_nil] at hl
    exact .some (hl ▸ hinv)
  | cons x post ih =>
    intro pre acc hl hinv
    exact (hstep pre x post acc hl hinv).bind fun acc' => ih (pre ++ [x]) acc' (by rw [hl]; simp)

/-- A fallible loop over a list runs to its end and establishes its invariant. -/
theorem foldlM_invariant {f : β → α → Option β} (hinit : Inv [] b)
    (hstep : ∀ pre x post acc, l = pre ++ x :: post → Inv pre acc →
      ∃ acc', f acc x = some acc' ∧ Inv (pre ++ [x]) acc') :
    ∃ b', l.foldlM f b = some b' ∧ Inv l b' :=
  (foldlM_gives Inv hinit fun pre x post acc hl hinv =>
    .of_exists (hstep pre x post acc hl hinv)).exists

/-- A fallible loop that did run to its end establishes its invariant. -/
theorem foldlM_some_invariant {f : β → α → Option β} {b' : β}
    (hrun : l.foldlM f b = some b') (hinit : Inv [] b)
    (hstep : ∀ pre x post acc acc', l = pre ++ x :: post → Inv pre acc → f acc x = some acc' →
      Inv (pre ++ [x]) acc') : Inv l b' :=
  (foldlM_gives Inv hinit fun pre x post acc hl hinv =>
    ⟨False.elim, fun acc' => hstep pre x post acc acc' hl hinv⟩).2 b' hrun

/-- A counted fallible loop. -/
theorem foldlM_range_invariant {f : β → ℕ → Option β} {n : ℕ} (Inv : ℕ → β → Prop) (hinit : Inv 0 b)
    (hstep : ∀ i acc, i < n → Inv i acc → ∃ acc', f acc i = some acc' ∧ Inv (i + 1) acc') :
    ∃ b', (range n).foldlM f b = some b' ∧ Inv n b' := by
  induction n with
  | zero => exact ⟨b, rfl, hinit⟩
  | succ n ih =>
    obtain ⟨acc, hacc, hinv⟩ := ih fun i acc hi => hstep i acc (by omega)
    obtain ⟨acc', hf, hinv'⟩ := hstep n acc (by omega) hinv
    refine ⟨acc', ?_, hinv'⟩
    rw [range_succ, foldlM_append, hacc, bind_eq_bind, bind_some, foldlM_cons, hf]
    rfl

/-- A pure loop over a list establishes its invariant. -/
theorem foldl_invariant {f : β → α → β} (hinit : Inv [] b)
    (hstep : ∀ pre x post acc, l = pre ++ x :: post → Inv pre acc → Inv (pre ++ [x]) (f acc x)) :
    Inv l (l.foldl f b) :=
  foldlM_some_invariant Inv (foldlM_pure (m := Option)) hinit fun pre x post acc _ hl hinv hf =>
    some.inj hf ▸ hstep pre x post acc hl hinv

/-- A counted pure loop. -/
theorem foldl_range_invariant {f : β → ℕ → β} {n : ℕ} (Inv : ℕ → β → Prop) (hinit : Inv 0 b)
    (hstep : ∀ i acc, i < n → Inv i acc → Inv (i + 1) (f acc i)) :
    Inv n ((range n).foldl f b) := by
  induction n with
  | zero => exact hinit
  | succ n ih =>
    rw [range_succ, foldl_append]
    exact hstep n _ (by omega) (ih fun i acc hi => hstep i acc (by omega))

/-- A loop that collects its results, none of which fails. -/
theorem mapM_of_forall {γ : Type*} {f : α → Option γ} {h : α → γ} (hf : ∀ x ∈ l, f x = some (h x)) :
    l.mapM f = some (l.map h) := by
  induction l with
  | nil => rfl
  | cons x l ih =>
    rw [mapM_cons, hf x mem_cons_self, ih fun y hy => hf y (mem_cons_of_mem _ hy)]
    rfl

theorem mapM_congr {γ : Type*} {f g : α → Option γ} (h : ∀ x ∈ l, f x = g x) :
    l.mapM f = l.mapM g := by
  induction l with
  | nil => rfl
  | cons x l ih =>
    rw [mapM_cons, mapM_cons, h x mem_cons_self, ih fun y hy => h y (mem_cons_of_mem _ hy)]

/-- A loop that did collect its results, one for each element. -/
theorem forall₂_of_mapM {γ : Type*} {f : α → Option γ} :
    ∀ {l : List α} {r : List γ}, l.mapM f = some r → Forall₂ (fun x y => f x = some y) l r := by
  intro l
  induction l with
  | nil => intro r h; cases h; exact .nil
  | cons x l ih =>
    intro r h
    rw [mapM_cons] at h
    obtain ⟨y, hy, h⟩ := bind_eq_some_iff.1 h
    obtain ⟨r', hr, h⟩ := bind_eq_some_iff.1 h
    cases h
    exact .cons hy (ih hr)

/-- A loop that collects its results fails only where one of them does. -/
theorem exists_mapM {γ : Type*} {f : α → Option γ} (h : ∀ x ∈ l, (f x).isSome) :
    ∃ r, l.mapM f = some r := by
  induction l with
  | nil => exact ⟨[], rfl⟩
  | cons x l ih =>
    obtain ⟨y, hy⟩ := isSome_iff_exists.1 (h x mem_cons_self)
    obtain ⟨r, hr⟩ := ih fun z hz => h z (mem_cons_of_mem _ hz)
    exact ⟨y :: r, by rw [mapM_cons, hy, hr]; rfl⟩

theorem flatMap_of_mapM {γ δ : Type*} {f : α → Option γ} {g : γ → List δ} {h : α → List δ}
    {r : List γ} (hr : l.mapM f = some r) (hgh : ∀ x ∈ l, ∀ y, f x = some y → g y = h x) :
    r.flatMap g = l.flatMap h := by
  induction l generalizing r with
  | nil => cases hr; rfl
  | cons x l ih =>
    rw [mapM_cons] at hr
    obtain ⟨y, hy, hr⟩ := bind_eq_some_iff.1 hr
    obtain ⟨r, hl, hr⟩ := bind_eq_some_iff.1 hr
    cases hr
    rw [flatMap_cons, flatMap_cons, hgh x mem_cons_self y hy,
      ih hl fun z hz => hgh z (mem_cons_of_mem _ hz)]

theorem exists_right_of_forall₂ {γ : Type*} {R : α → γ → Prop} {r : List γ} (h : Forall₂ R l r)
    {x : α} (hx : x ∈ l) : ∃ y ∈ r, R x y := by
  induction h with
  | nil => exact absurd hx not_mem_nil
  | cons hxy _ ih =>
    rcases mem_cons.1 hx with rfl | hx
    · exact ⟨_, mem_cons_self .., hxy⟩
    · obtain ⟨y, hy, hR⟩ := ih hx
      exact ⟨y, mem_cons_of_mem _ hy, hR⟩

theorem exists_left_of_forall₂ {γ : Type*} {R : α → γ → Prop} {r : List γ} (h : Forall₂ R l r)
    {y : γ} (hy : y ∈ r) : ∃ x ∈ l, R x y :=
  exists_right_of_forall₂ (.flip h) hy

end Ceph.Loop

namespace Ceph

open List Option

variable {γ : Type} {p : Prop} [Decidable p]

/-- `assert(p)`. -/
def assert (p : Prop) [Decidable p] : Option Unit := if p then some () else none

theorem assert_eq_some {p : Prop} [Decidable p] {u : Unit} : assert p = some u ↔ p := by
  rw [assert]
  split <;> simp [*]

theorem assert_bind (h : p) (f : Unit → Option γ) : (assert p >>= f) = f () := by
  rw [assert, if_pos h]
  rfl

theorem assert_bind_of_not (h : ¬ p) (f : Unit → Option γ) : (assert p >>= f) = none := by
  rw [assert, if_neg h]
  rfl

theorem assert_bind_eq_some {f : Unit → Option γ} {c : γ} :
    (assert p >>= f) = some c ↔ p ∧ f () = some c := by
  by_cases h : p
  · rw [assert_bind h]
    exact ⟨fun hf => ⟨h, hf⟩, fun hf => hf.2⟩
  · rw [assert, if_neg h]
    exact ⟨nofun, fun hf => absurd hf.1 h⟩

/-! ## The steps of a run that did not fail -/

theorem of_assert {f : Unit → Option γ} {c : γ} (h : (assert p >>= f) = some c) :
    p ∧ f () = some c := assert_bind_eq_some.1 h

theorem of_bind {α β : Type} {o : Option α} {f : α → Option β} {c : β} (h : (o >>= f) = some c) :
    ∃ a, o = some a ∧ f a = some c := bind_eq_some_iff.1 h

theorem of_map {α β : Type} {o : Option α} {f : α → β} {c : β} (h : o.map f = some c) :
    ∃ a, o = some a ∧ f a = c := map_eq_some_iff.1 h

theorem Gives.assert {ok : Prop} (h : ok → p) :
    Gives ok (fun _ => p) (Ceph.assert p) :=
  ⟨fun hok => isSome_iff_exists.2 ⟨(), assert_eq_some.2 (h hok)⟩, fun _ => assert_eq_some.1⟩

end Ceph
