import Mathlib

/-!
# Expiring the tags of a journal

`expire_tags` of `cls_journal` reads the registered clients page by page for the smallest tag
tid one of them has committed.  It then lists the tags twice, up to the first one that is not
below that tid: first to note the newest tag of each class, then to remove the older ones.

* `scanPages_eq`: a loop over the pages of a listing sees all its entries;
* `expireTags_removes`: which tags are removed, in terms of what the clients have committed;
* `expireTags_safe_iff`: when the tags in use are kept.  They are not if a client has not committed,
  if its id is empty, or if the smallest committed tag is not stored (`not_expireTags_safe`).
-/

namespace Ceph.Cls

open List

/-! ## Pages -/

section

variable {α σ K : Type} [LinearOrder K]

/-- `cls_cxx_map_get_vals`: at most `maxReturn` entries, from the first key after `startAfter`
on. -/
def getVals (key : α → K) (omap : List α) (startAfter : K) (maxReturn : ℕ) : List α :=
  (omap.filter fun x => startAfter < key x).take maxReturn

/-- `MAX_KEYS_READ` -/
def maxKeysRead : ℕ := 64

variable (key : α → K) (omap : σ → List α) (step : σ → α → σ) (stops : α → Bool)

/-- The entries of a page; `true` if one of them ends the listing and the page is cleared. -/
def scanPage : σ → List α → σ × Bool
  | s, [] => (s, false)
  | s, x :: vals => if stops x then (step s x, true) else scanPage (step s x) vals

/-- List the entries page by page, until a page is not full or was cleared. -/
def scanPages : ℕ → K → σ → Option σ
  | 0, _, _ => none
  | fuel + 1, lastRead, s =>
    let vals := getVals key (omap s) lastRead maxKeysRead
    let (s, cleared) := scanPage step stops s vals
    if cleared ∨ vals.length < maxKeysRead then some s
    else scanPages fuel ((vals.getLast?.map key).getD lastRead) s

variable {key omap step stops} {last : K} {s : σ}

variable (step stops s) in
theorem scanPage_append (a b : List α) : scanPage step stops s (a ++ b) =
    if (scanPage step stops s a).2 then scanPage step stops s a
    else scanPage step stops (scanPage step stops s a).1 b := by
  induction a generalizing s with
  | nil => rfl
  | cons x a ih =>
    rw [cons_append, scanPage, scanPage]
    split_ifs <;> simp_all

/-- After a full page the next one begins where it ended. -/
theorem getVals_next {omap : List α} {n : ℕ} (hn : 0 < n)
    (hsorted : (omap.filter fun y => last < key y).Pairwise fun a b => key a < key b)
    (hfull : n ≤ (getVals key omap last n).length) :
    ∃ x, (getVals key omap last n).getLast? = some x ∧
      (∀ y ∈ getVals key omap last n, key y ≤ key x) ∧
      (omap.filter fun y => key x < key y) = (omap.filter fun y => last < key y).drop n := by
  obtain ⟨todo, htodo⟩ : ∃ todo, todo = omap.filter fun y => last < key y := ⟨_, rfl⟩
  rw [getVals, ← htodo] at hfull ⊢
  obtain ⟨init, x, hinit⟩ :=
    (eq_nil_or_concat' _).resolve_left (ne_nil_of_length_pos (hn.trans_le hfull))
  have hsplit : todo = (init ++ [x]) ++ todo.drop n := by rw [← hinit, take_append_drop]
  rw [← htodo, hsplit, pairwise_append, pairwise_append] at hsorted
  obtain ⟨⟨-, -, hbefore⟩, -, hafter⟩ := hsorted
  have hle : ∀ y ∈ init ++ [x], key y ≤ key x := by
    intro y hy
    rcases mem_append.1 hy with hy | hy
    · exact (hbefore y hy x (mem_singleton_self x)).le
    · rw [mem_singleton.1 hy]
  refine ⟨x, by rw [hinit]; simp, hinit ▸ hle, ?_⟩
  have hlt : last < key x := by
    have hmem : x ∈ todo := mem_of_mem_take (by rw [hinit]; simp)
    rw [htodo] at hmem
    simpa using (mem_filter.1 hmem).2
  have hfilter : (omap.filter fun y => key x < key y) = todo.filter fun y => key x < key y := by
    rw [htodo, filter_filter]
    refine filter_congr fun y _ => ?_
    by_cases hy : key x < key y
    · simp [hy, hlt.trans hy]
    · simp [hy]
  rw [hfilter]
  conv_lhs => rw [hsplit, filter_append]
  rw [filter_eq_nil_iff.2 fun y hy => by simpa using hle y hy,
    filter_eq_self.2 fun y hy => by simpa using hafter x (by simp) y hy, nil_append]

variable (key omap) in
/-- The pages give all entries, if what is done with an entry leaves the ones after it. -/
theorem scanPages_eq {fuel : ℕ} (hkeep : ∀ s x y, key y ≤ key x →
      ((omap (step s y)).filter fun z => key x < key z) = (omap s).filter fun z => key x < key z)
    (hsorted : ((omap s).filter fun y => last < key y).Pairwise fun a b => key a < key b)
    (hfuel : ((omap s).filter fun y => last < key y).length < fuel) :
    scanPages key omap step stops fuel last s =
      some (scanPage step stops s ((omap s).filter fun y => last < key y)).1 := by
  have hrest : ∀ (vals : List α) (s : σ) (x : α), (∀ y ∈ vals, key y ≤ key x) →
      ((omap (scanPage step stops s vals).1).filter fun z => key x < key z) =
        (omap s).filter fun z => key x < key z := by
    intro vals s x hle
    induction vals generalizing s with
    | nil => rfl
    | cons y vals ih =>
      obtain ⟨hy, hvals⟩ := forall_mem_cons.1 hle
      rw [scanPage]
      split_ifs
      · exact hkeep s x y hy
      · exact (ih _ hvals).trans (hkeep s x y hy)
  induction fuel generalizing last s with
  | zero => omega
  | succ fuel ih =>
    have happend := scanPage_append step stops s (getVals key (omap s) last maxKeysRead)
      (((omap s).filter fun y => last < key y).drop maxKeysRead)
    rw [getVals, take_append_drop, ← getVals] at happend
    rw [scanPages, happend]
    by_cases hclear : (scanPage step stops s (getVals key (omap s) last maxKeysRead)).2
    · simp [hclear]
    by_cases hfull : maxKeysRead ≤ (getVals key (omap s) last maxKeysRead).length
    · obtain ⟨x, hx, hle, heq⟩ := getVals_next (by decide) hsorted hfull
      have hnext := (hrest _ s x hle).trans heq
      have hlen := hfull.trans (length_take_le' _ _)
      have hpos : 0 < maxKeysRead := by decide
      have hpages := ih (hnext ▸ hsorted.sublist (drop_sublist _ _))
        (by rw [hnext, length_drop]; omega)
      rw [hnext] at hpages
      simp [hclear, not_lt.2 hfull, hx, hpages]
    · have hshort := hfull
      rw [getVals, length_take] at hshort
      have hall : ((omap s).filter fun y => last < key y).drop maxKeysRead = [] :=
        drop_of_length_le (by omega)
      simp [hclear, hfull, hall, scanPage]

end

/-! ## The method -/

/-- A registered client: its id, and the `tag_tid`s of its committed object positions. -/
structure JournalClient where
  id : String
  objectPositions : List ℕ
  deriving DecidableEq

/-- A tag, apart from its data.  It is stored under its tid. -/
structure JournalTag where
  tid : ℕ
  tagClass : ℕ
  deriving DecidableEq

/-- The key of a tag; the tid is written with a fixed width.  `⊥` is the prefix of the keys. -/
def JournalTag.key (tag : JournalTag) : WithBot ℕ := tag.tid

/-- The smallest tid, with the positions of one more client; the skipped client does not count. -/
def minimumWith (skip : Option String) (minimum : ℕ) (client : JournalClient) : ℕ :=
  if some client.id = skip then minimum else client.objectPositions.foldl min minimum

/-- The two passes over the tags. -/
inductive TagPass
  | calculateMinimums
  | scrub

/-- The stored tags, and `minimum_tag_class_to_tids`. -/
structure TagState where
  tags : List JournalTag
  minimums : ℕ → ℕ

open TagState

/-- What a pass does with one tag. -/
def TagState.visit (pass : TagPass) (st : TagState) (tag : JournalTag) : TagState :=
  match pass with
  | .calculateMinimums => { st with minimums := Function.update st.minimums tag.tagClass tag.tid }
  | .scrub =>
    if tag.tid < st.minimums tag.tagClass then { st with tags := st.tags.filter (· ≠ tag) } else st

/-- `std::numeric_limits<uint64_t>::max()` -/
def uint64Limit : ℕ := 2 ^ 64 - 1

/-- `minimum_tag_tid`.  A client is stored under the prefix and its id, and the keys are read from
the one after the prefix on. -/
def minimumTagTid (clients : List JournalClient) (skip : Option String) : Option ℕ :=
  scanPages JournalClient.id (fun _ => clients) (minimumWith skip) (fun _ => false)
    (clients.length + 1) "" uint64Limit

/-- One pass over the tags. -/
def tagPass (minimum : ℕ) (pass : TagPass) (st : TagState) : Option TagState :=
  scanPages JournalTag.key tags (visit pass) (fun tag => minimum ≤ tag.tid)
    (st.tags.length + 1) ⊥ st

/-- `expire_tags`: the tags that are left. -/
def expireTags (clients : List JournalClient) (tags : List JournalTag) (skip : Option String) :
    Option (List JournalTag) := do
  let minimum ← minimumTagTid clients skip
  if minimum = uint64Limit then some tags
  else
    let st ← tagPass minimum .calculateMinimums ⟨tags, fun _ => 0⟩
    let st ← tagPass minimum .scrub st
    some st.tags

/-! ## The clients -/

variable {clients : List JournalClient} {tags : List JournalTag} {skip : Option String}

/-- The pages give all clients, apart from one with an empty id. -/
theorem minimumTagTid_eq (hsorted : clients.Pairwise fun a b => a.id < b.id) :
    minimumTagTid clients skip =
      some ((clients.filter fun c => "" < c.id).foldl (minimumWith skip) uint64Limit) := by
  refine (scanPages_eq JournalClient.id (fun _ => clients) (fun _ _ _ _ => rfl) (hsorted.filter _)
    (Nat.lt_succ_of_le (length_filter_le ..))).trans (congrArg some ?_)
  generalize uint64Limit = m
  generalize (clients.filter fun c => "" < c.id) = l
  induction l generalizing m with
  | nil => rfl
  | cons c l ih => exact ih _

theorem foldl_min_le (l : List ℕ) (m : ℕ) :
    l.foldl min m ≤ m ∧ (∀ p ∈ l, l.foldl min m ≤ p) ∧ (l.foldl min m = m ∨ l.foldl min m ∈ l) := by
  induction l generalizing m with
  | nil => simp
  | cons p l ih =>
    rw [foldl_cons]
    grind

theorem foldl_minimumWith_spec (skip : Option String) (l : List JournalClient) (m : ℕ) :
    l.foldl (minimumWith skip) m ≤ m ∧
      (∀ c ∈ l, some c.id ≠ skip → ∀ p ∈ c.objectPositions, l.foldl (minimumWith skip) m ≤ p) ∧
      (l.foldl (minimumWith skip) m = m ∨
        ∃ c ∈ l, some c.id ≠ skip ∧ l.foldl (minimumWith skip) m ∈ c.objectPositions) := by
  induction l generalizing m with
  | nil => simp
  | cons c l ih =>
    obtain ⟨h1, h2, h3⟩ := ih (minimumWith skip m c)
    obtain ⟨k1, k2, k3⟩ := foldl_min_le c.objectPositions m
    rw [foldl_cons]
    rw [minimumWith] at h1 h2 h3 ⊢
    split_ifs at h1 h2 h3 ⊢ <;> grind

/-! ## The tags -/

/-- The entries that a listing gets to, up to the first one that ends it. -/
def reached {α : Type} (stops : α → Bool) : List α → List α
  | [] => []
  | x :: vals => if stops x then [x] else x :: reached stops vals

theorem scanPage_fst {α σ : Type} (step : σ → α → σ) (stops : α → Bool) (vals : List α) (s : σ) :
    (scanPage step stops s vals).1 = (reached stops vals).foldl step s := by
  induction vals generalizing s with
  | nil => rfl
  | cons x vals ih =>
    rw [scanPage, reached]
    split_ifs
    · rfl
    · exact ih _

theorem reached_sublist {α : Type} (stops : α → Bool) (vals : List α) :
    reached stops vals <+ vals := by
  induction vals with
  | nil => exact Sublist.slnil
  | cons x vals ih =>
    rw [reached]
    split_ifs
    · simp
    · exact ih.cons_cons x

variable {minimum : ℕ}

/-- A tag is reached if all older ones are below the minimum. -/
theorem mem_reached {tag : JournalTag} (hsorted : tags.Pairwise fun a b => a.tid < b.tid) :
    tag ∈ reached (fun tag => minimum ≤ tag.tid) tags ↔
      tag ∈ tags ∧ ∀ s ∈ tags, s.tid < tag.tid → s.tid < minimum := by
  induction tags with
  | nil => simp [reached]
  | cons x tags ih =>
    obtain ⟨hx, htags⟩ := pairwise_cons.1 hsorted
    have htag := hx tag
    rw [reached]
    split_ifs with hstop
    · grind
    · rw [mem_cons, ih htags]
      grind

/-- A pass visits all tags that are reached. -/
theorem tagPass_eq (pass : TagPass) (st : TagState)
    (hsorted : st.tags.Pairwise fun a b => a.tid < b.tid) :
    tagPass minimum pass st = some
      ((reached (fun tag => minimum ≤ tag.tid) st.tags).foldl (visit pass) st) := by
  have hkeys : st.tags.Pairwise fun a b => a.key < b.key :=
    hsorted.imp fun h => WithBot.coe_lt_coe.2 h
  have hfrom : (st.tags.filter fun t => ⊥ < t.key) = st.tags :=
    filter_eq_self.2 fun t _ => decide_eq_true (WithBot.bot_lt_coe t.tid)
  rw [tagPass, scanPages_eq _ _ (fun st x y hle => ?_) (hkeys.filter _)
    (Nat.lt_succ_of_le (length_filter_le ..)), hfrom, scanPage_fst]
  cases pass with
  | calculateMinimums => rfl
  | scrub =>
    rw [visit]
    split_ifs
    · rw [filter_filter]
      refine filter_congr fun z _ => ?_
      by_cases hz : z = y
      · simp [hz, hle]
      · simp [hz]
    · rfl

/-- The first pass notes the newest of the tags of each class. -/
theorem foldl_calculate (tags l : List JournalTag) (hsorted : l.Pairwise fun a b => a.tid < b.tid) :
    ∃ minimums : ℕ → ℕ, l.foldl (visit .calculateMinimums) ⟨tags, fun _ => 0⟩ = ⟨tags, minimums⟩ ∧
      (∀ t ∈ l, t.tid ≤ minimums t.tagClass) ∧
      ∀ cls, 0 < minimums cls → ∃ t ∈ l, t.tagClass = cls ∧ t.tid = minimums cls := by
  induction l using List.reverseRecOn with
  | nil => exact ⟨_, rfl, by simp⟩
  | append_singleton l x ih =>
    obtain ⟨hl, -, hx⟩ := pairwise_append.1 hsorted
    obtain ⟨minimums, hfold, hle, hnoted⟩ := ih hl
    refine ⟨Function.update minimums x.tagClass x.tid, by rw [foldl_append, hfold]; rfl, ?_, ?_⟩
    · intro t ht
      rcases mem_append.1 ht with ht | ht
      · by_cases hcls : t.tagClass = x.tagClass
        · rw [hcls, Function.update_self]
          exact (hx t ht x (mem_singleton_self x)).le
        · rw [Function.update_of_ne hcls]
          exact hle t ht
      · rw [mem_singleton.1 ht, Function.update_self]
    · intro cls hpos
      by_cases hcls : cls = x.tagClass
      · exact ⟨x, by simp, hcls.symm, by rw [hcls, Function.update_self]⟩
      · rw [Function.update_of_ne hcls] at hpos ⊢
        obtain ⟨t, ht, hnote⟩ := hnoted cls hpos
        exact ⟨t, mem_append_left _ ht, hnote⟩

/-- The second pass removes the tags older than the one noted for their class. -/
theorem mem_foldl_scrub {tag : JournalTag} (l : List JournalTag) (st : TagState) :
    tag ∈ (l.foldl (visit .scrub) st).tags ↔
      tag ∈ st.tags ∧ (tag ∈ l → st.minimums tag.tagClass ≤ tag.tid) := by
  induction l generalizing st with
  | nil => simp
  | cons x l ih =>
    rw [foldl_cons, ih, visit]
    split_ifs with hold <;> grind

/-- What `expire_tags` removes once it has a minimum. -/
theorem expireTags_eq (htags : tags.Pairwise fun a b => a.tid < b.tid)
    (hmin : minimumTagTid clients skip = some minimum) (hne : minimum ≠ uint64Limit) :
    ∃ kept, expireTags clients tags skip = some kept ∧ ∀ t ∈ tags, t ∉ kept ↔
      ∃ t' ∈ tags, t'.tagClass = t.tagClass ∧ t.tid < t'.tid ∧
        ∀ s ∈ tags, s.tid < t'.tid → s.tid < minimum := by
  obtain ⟨minimums, hfold, hle, hnoted⟩ :=
    foldl_calculate tags _ (htags.sublist (reached_sublist (fun t => minimum ≤ t.tid) tags))
  refine ⟨((reached (fun t => minimum ≤ t.tid) tags).foldl (visit .scrub) ⟨tags, minimums⟩).tags,
    ?_, fun t ht => ?_⟩
  · simp only [expireTags, hmin, Option.bind_eq_bind, Option.bind_some, if_neg hne]
    rw [tagPass_eq _ _ htags, Option.bind_some, hfold, tagPass_eq _ _ htags]
    rfl
  rw [mem_foldl_scrub, not_and, Classical.not_imp, not_le]
  simp only [mem_reached htags] at hle hnoted ⊢
  constructor
  · intro h
    obtain ⟨-, hlt⟩ := h ht
    obtain ⟨t', ⟨ht', hreach⟩, hcls, htid⟩ := hnoted _ (Nat.zero_lt_of_lt hlt)
    exact ⟨t', ht', hcls, htid ▸ hlt, hreach⟩
  · rintro ⟨t', ht', hcls, hlt, hreach⟩ -
    exact ⟨⟨ht, fun s hs hst => hreach s hs (hst.trans hlt)⟩,
      hlt.trans_le (hcls ▸ hle t' ⟨ht', hreach⟩)⟩

/-! ## Tags in use -/

/-- A tag is removed only if every client other than the skipped one has committed, and a newer
tag of the same class is not above the smallest tid they have committed. -/
def KeepsInUse (clients : List JournalClient) (tags : List JournalTag) (skip : Option String)
    (kept : List JournalTag) : Prop :=
  ∀ t ∈ tags, t ∉ kept → (∀ c ∈ clients, some c.id ≠ skip → c.objectPositions ≠ []) ∧
    ∃ t' ∈ tags, t'.tagClass = t.tagClass ∧ t.tid < t'.tid ∧
      ∀ c ∈ clients, some c.id ≠ skip → ∀ p ∈ c.objectPositions, t'.tid ≤ p

/-- The tids committed by the clients that the listing gives: the skipped one does not count, nor
does one with an empty id. -/
def listed (clients : List JournalClient) (skip : Option String) : Set ℕ :=
  { p | ∃ c ∈ clients, some c.id ≠ skip ∧ "" < c.id ∧ p ∈ c.objectPositions }

/-- A client that is listed has committed, and no tag older than this one is at or above what a
listed client has committed. -/
def PassesOver (clients : List JournalClient) (tags : List JournalTag) (skip : Option String)
    (tag : JournalTag) : Prop :=
  (∃ p ∈ listed clients skip, p < uint64Limit) ∧
    ∀ s ∈ tags, s.tid < tag.tid → ∀ p ∈ listed clients skip, s.tid < p

variable (skip) in
/-- The minimum over the pages, in terms of the clients. -/
theorem minimumTagTid_spec (hsorted : clients.Pairwise fun a b => a.id < b.id) :
    ∃ minimum, minimumTagTid clients skip = some minimum ∧
      ((∃ p ∈ listed clients skip, p < uint64Limit) ↔ minimum ≠ uint64Limit) ∧
      (minimum ≠ uint64Limit → IsLeast (listed clients skip) minimum) := by
  obtain ⟨hlimit, hle, hor⟩ := foldl_minimumWith_spec skip
    (clients.filter fun c => "" < c.id) uint64Limit
  refine ⟨_, minimumTagTid_eq hsorted, ?_⟩
  generalize (clients.filter fun c => "" < c.id).foldl (minimumWith skip) uint64Limit =
    minimum at hlimit hle hor ⊢
  have hleast : minimum ≠ uint64Limit → IsLeast (listed clients skip) minimum := by
    intro hne
    obtain ⟨c, hc, hskip, hp⟩ := hor.resolve_left hne
    obtain ⟨hc, hid⟩ := mem_filter.1 hc
    refine ⟨⟨c, hc, hskip, of_decide_eq_true hid, hp⟩, ?_⟩
    rintro p ⟨c', hc', hskip', hid', hp'⟩
    exact hle c' (mem_filter.2 ⟨hc', decide_eq_true hid'⟩) hskip' p hp'
  refine ⟨⟨?_, fun hne => ⟨minimum, (hleast hne).1, lt_of_le_of_ne hlimit hne⟩⟩, hleast⟩
  rintro ⟨p, ⟨c, hc, hskip, hid, hp⟩, hlt⟩
  exact ((hle c (mem_filter.2 ⟨hc, decide_eq_true hid⟩) hskip p hp).trans_lt hlt).ne

variable (skip) in
/-- What is removed: the tags with a newer one of the class that is passed over. -/
theorem expireTags_removes (hclients : clients.Pairwise fun a b => a.id < b.id)
    (htags : tags.Pairwise fun a b => a.tid < b.tid) :
    ∃ kept, expireTags clients tags skip = some kept ∧ ∀ t ∈ tags, t ∉ kept ↔
      ∃ t' ∈ tags, t'.tagClass = t.tagClass ∧ t.tid < t'.tid ∧ PassesOver clients tags skip t' := by
  obtain ⟨minimum, hmin, hsome, hleast⟩ := minimumTagTid_spec skip hclients
  by_cases hne : minimum = uint64Limit
  · refine ⟨tags, by simp [expireTags, hmin, hne], fun t ht => ?_⟩
    have hnone : ¬ ∃ p ∈ listed clients skip, p < uint64Limit := fun h => hsome.1 h hne
    simp [ht, PassesOver, hnone]
  · obtain ⟨kept, hkept, hiff⟩ := expireTags_eq htags hmin hne
    refine ⟨kept, hkept, fun t ht => (hiff t ht).trans ?_⟩
    have hbelow : ∀ n, n < minimum ↔ ∀ p ∈ listed clients skip, n < p := fun n =>
      ⟨fun h p hp => h.trans_le ((hleast hne).2 hp), fun h => h _ (hleast hne).1⟩
    simp only [PassesOver, hbelow, hsome.2 hne, true_and]

/-- **Tags in use are kept** exactly if each tag that is passed over, and has an older one of its
class, is not above anything that the clients have committed, all of whom have to have done so. -/
theorem expireTags_safe_iff (hclients : clients.Pairwise fun a b => a.id < b.id)
    (htags : tags.Pairwise fun a b => a.tid < b.tid) :
    ∃ kept, expireTags clients tags skip = some kept ∧ (KeepsInUse clients tags skip kept ↔
      ∀ t ∈ tags, ∀ t' ∈ tags, t'.tagClass = t.tagClass → t.tid < t'.tid →
        PassesOver clients tags skip t' → ∀ c ∈ clients, some c.id ≠ skip →
          c.objectPositions ≠ [] ∧ ∀ p ∈ c.objectPositions, t'.tid ≤ p) := by
  obtain ⟨kept, hkept, hiff⟩ := expireTags_removes skip hclients htags
  refine ⟨kept, hkept, fun hkeeps t ht t' ht' hcls hlt hpass c hc hskip => ?_,
    fun h t ht hnot => ?_⟩
  · -- the newest tag of the class before `t'` is removed as well
    obtain ⟨u, hu, hmax⟩ := (tags.toFinset.filter fun u =>
      t'.tagClass = u.tagClass ∧ u.tid < t'.tid).exists_max_image JournalTag.tid
        ⟨t, by simp [ht, hcls, hlt]⟩
    simp only [Finset.mem_filter, mem_toFinset] at hu hmax
    obtain ⟨hu, hucls, hult⟩ := hu
    obtain ⟨hall, s, hs, hscls, hus, hsle⟩ :=
      hkeeps u hu ((hiff u hu).2 ⟨t', ht', hucls, hult, hpass⟩)
    have hts : t'.tid ≤ s.tid := by
      by_contra hst
      exact absurd (hmax s ⟨hs, hucls.trans hscls.symm, not_le.1 hst⟩) (not_le.2 hus)
    exact ⟨hall c hc hskip, fun p hp => hts.trans (hsle c hc hskip p hp)⟩
  · obtain ⟨t', ht', hcls, hlt, hpass⟩ := (hiff t ht).1 hnot
    have hc := h t ht t' ht' hcls hlt hpass
    exact ⟨fun c hmem hskip => (hc c hmem hskip).1, t', ht', hcls, hlt,
      fun c hmem hskip => (hc c hmem hskip).2⟩

/-- Two clients have committed tags 2 and 3 and the third, which has not, is skipped: tag 1 is
removed.  If that client counts, tags 1 and 4 of two classes are kept. -/
theorem expireTags_safe_three :
    (expireTags [⟨"a", [2]⟩, ⟨"b", [3]⟩, ⟨"c", []⟩] [⟨1, 0⟩, ⟨2, 0⟩, ⟨3, 0⟩] (some "c") =
        some [⟨2, 0⟩, ⟨3, 0⟩] ∧
      KeepsInUse [⟨"a", [2]⟩, ⟨"b", [3]⟩, ⟨"c", []⟩] [⟨1, 0⟩, ⟨2, 0⟩, ⟨3, 0⟩] (some "c")
        [⟨2, 0⟩, ⟨3, 0⟩]) ∧
    ∃ kept, expireTags [⟨"a", [2]⟩, ⟨"b", [3]⟩, ⟨"c", []⟩] [⟨1, 0⟩, ⟨4, 1⟩] none = some kept ∧
      KeepsInUse [⟨"a", [2]⟩, ⟨"b", [3]⟩, ⟨"c", []⟩] [⟨1, 0⟩, ⟨4, 1⟩] none kept := by
  have hids : [(⟨"a", [2]⟩ : JournalClient), ⟨"b", [3]⟩, ⟨"c", []⟩].Pairwise
    fun a b => a.id < b.id := by decide +kernel
  obtain ⟨kept, hkept, hiff⟩ :=
    @expireTags_safe_iff _ [⟨1, 0⟩, ⟨2, 0⟩, ⟨3, 0⟩] (some "c") hids (by decide)
  obtain ⟨kept', hkept', hiff'⟩ := @expireTags_safe_iff _ [⟨1, 0⟩, ⟨4, 1⟩] none hids (by decide)
  obtain rfl : [⟨2, 0⟩, ⟨3, 0⟩] = kept := Option.some.inj (.trans (by decide +kernel) hkept)
  refine ⟨⟨hkept, hiff.2 ?_⟩, kept', hkept', hiff'.2 (by simp)⟩
  rintro t - t' - - - ⟨-, hpass⟩
  have hmem : 2 ∈ listed [⟨"a", [2]⟩, ⟨"b", [3]⟩, ⟨"c", []⟩] (some "c") :=
    ⟨⟨"a", [2]⟩, by simp, by simp, by decide +kernel, by simp⟩
  have hle : t'.tid ≤ 2 := not_lt.1 fun h => lt_irrefl 2 (hpass ⟨2, 0⟩ (by simp) h 2 hmem)
  simp
  omega

/-- Tags in use are removed if a client has not committed, if its id is empty, or if the
smallest committed tag is not stored. -/
theorem not_expireTags_safe :
    (∃ kept, expireTags [⟨"a", [2]⟩, ⟨"b", []⟩] [⟨1, 0⟩, ⟨2, 0⟩] none = some kept ∧
      ¬ KeepsInUse [⟨"a", [2]⟩, ⟨"b", []⟩] [⟨1, 0⟩, ⟨2, 0⟩] none kept) ∧
    (∃ kept, expireTags [⟨"", [1]⟩, ⟨"b", [2]⟩] [⟨1, 0⟩, ⟨2, 0⟩] none = some kept ∧
      ¬ KeepsInUse [⟨"", [1]⟩, ⟨"b", [2]⟩] [⟨1, 0⟩, ⟨2, 0⟩] none kept) ∧
    ∃ kept, expireTags [⟨"a", [2]⟩] [⟨1, 0⟩, ⟨3, 0⟩] none = some kept ∧
      ¬ KeepsInUse [⟨"a", [2]⟩] [⟨1, 0⟩, ⟨3, 0⟩] none kept := by
  refine ⟨⟨[⟨2, 0⟩], by decide +kernel, ?_⟩, ⟨[⟨2, 0⟩], by decide +kernel, ?_⟩,
    ⟨[⟨3, 0⟩], by decide +kernel, ?_⟩⟩ <;> simp [KeepsInUse]

end Ceph.Cls
