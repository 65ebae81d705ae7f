import BurrowState.Storage.PrefixStore

/-!
# Prefixed iteration

`prefixIterator` filters a source to the keys under a prefix, and `Prefix.Iterator`/`ReverseIterator` translate
local bounds with `Key` (`keySlice`).  Forward, the loop yields the local range of the view (`drain_iterator`), an
empty `end` being no bound under the `nil` prefix (`drain_iterator_none`).  Reverse, `skipOne` drops `Above()`
and the scan stops below the prefix (`drain_reverseIterator`); an empty prefix also drops an empty first key.
-/

namespace BurrowState

open KVStore

/-- `prefixIterator`; Go's `start` and `end` are read only by `Domain`, which is not modelled. -/
structure PrefixIterator (σ : Type) where
  keyPrefix : Prefix
  source : σ
  invalid : Bool

namespace PrefixIterator

variable {σ : Type} [DBIterator σ]

/-- `prefixIterator.validate`: an exhausted source or a key outside the prefix invalidates it and closes the source. -/
def validate (pi : PrefixIterator σ) : Except GoError (PrefixIterator σ) :=
  if pi.invalid then .ok pi else do
    let (sourceValid, source) ← DBIterator.valid pi.source
    let invalid ← if sourceValid then (fun k => !decide (pi.keyPrefix <+: k)) <$> DBIterator.key source
      else pure true
    pure (if invalid then ⟨pi.keyPrefix, DBIterator.close source, true⟩ else ⟨pi.keyPrefix, source, false⟩)

def valid (pi : PrefixIterator σ) : Except GoError (Bool × PrefixIterator σ) := do
  let pi ← pi.validate
  if pi.invalid then pure (false, pi) else do
    let (ok, source) ← DBIterator.valid pi.source
    pure (ok, ⟨pi.keyPrefix, source, pi.invalid⟩)

def next (pi : PrefixIterator σ) : Except GoError (PrefixIterator σ) :=
  if pi.invalid then .error (.panic "prefixIterator.Next() called on invalid iterator") else do
    let source ← DBIterator.next pi.source
    validate ⟨pi.keyPrefix, source, pi.invalid⟩

def key (pi : PrefixIterator σ) : Except GoError Bytes :=
  if pi.invalid then .error (.panic "prefixIterator.Key() called on invalid iterator") else do
    let k ← DBIterator.key pi.source
    pi.keyPrefix.suffix k

def value (pi : PrefixIterator σ) : Except GoError Bytes :=
  if pi.invalid then .error (.panic "prefixIterator.Value() called on invalid iterator") else
    DBIterator.value pi.source

def close (pi : PrefixIterator σ) : PrefixIterator σ := ⟨pi.keyPrefix, DBIterator.close pi.source, pi.invalid⟩

instance : DBIterator (PrefixIterator σ) := ⟨valid, key, value, next, close⟩

end PrefixIterator

/-- `skipOne`: moves past the first key if it is `skipKey`; `bytes.Equal` takes a `nil` `skipKey` for the empty key. -/
def skipOne {σ : Type} [DBIterator σ] (it : σ) (skipKey : Option Bytes) : Except GoError σ := do
  let (ok, it) ← DBIterator.valid it
  if ok then do
    let k ← DBIterator.key it
    if k = skipKey.getD [] then DBIterator.next it else pure it
  else pure it

namespace Prefix

variable {σ : Type} [DBIterator σ]

/-- `Prefix.Iterator` of a prefix that may be `nil` (`none`): the physical range of `[start, end)`, unbounded above
by `Above()` when `end` is `nil`.  `bytes.HasPrefix` and `Suffix` take a `nil` prefix for the empty one. -/
def iterator (p : Option Prefix) (iteratorFn : Option Bytes → Option Bytes → σ) (start «end» : Option Bytes) :
    PrefixIterator σ :=
  let pend := match «end» with
    | none => (p.getD []).above
    | some e => keySlice p (some e)
  ⟨p.getD [], iteratorFn (keySlice p start) pend, false⟩

/-- `Prefix.ReverseIterator`: the physical scan starts at `Above()` when `start` is `nil` and drops that first
entry with `skipOne`; it stops at `Below()` when `end` is `nil`. -/
def reverseIterator (p : Option Prefix) (iteratorFn : Option Bytes → Option Bytes → σ) (start «end» : Option Bytes) :
    Except GoError (PrefixIterator σ) := do
  let above := (p.getD []).above
  let pstart := match start with
    | none => above
    | some s => keySlice p (some s)
  let pend := match «end» with
    | none => (p.getD []).below
    | some e => keySlice p (some e)
  let source ← skipOne (iteratorFn pstart pend) above
  pure ⟨p.getD [], source, false⟩

end Prefix

/-! ### Over an iterator that visits a list -/

namespace PrefixIterator

variable {σ : Type} [DBIterator σ] (p : Prefix)

def localEntry (e : Bytes × Bytes) : Bytes × Bytes := (e.1.drop p.length, e.2)

/-- What a prefix iterator shows of the entries `es` of its source: those before the first one outside the prefix. -/
def visible (es : List (Bytes × Bytes)) : List (Bytes × Bytes) :=
  (es.takeWhile fun e => decide (p <+: e.1)).map (localEntry p)

private theorem visible_nil (es : List (Bytes × Bytes)) : visible [] es = es := by
  rw [visible, List.takeWhile_eq_self_iff.2 fun e _ => by simp]
  exact List.map_id'' (fun _ => rfl) _

private theorem visits_invalid (src : σ) : Visits (⟨p, src, true⟩ : PrefixIterator σ) [] := .nil rfl

private theorem visits_of_validate_invalid {src src' : σ}
    (h : validate (⟨p, src, false⟩ : PrefixIterator σ) = .ok ⟨p, src', true⟩) :
    Visits (⟨p, src, false⟩ : PrefixIterator σ) [] :=
  .nil (show DBIterator.valid _ = .ok (false, ⟨p, src', true⟩) by simp [DBIterator.valid, valid, h])

/-- Over a source that visits `es`, a prefix iterator and its validation visit what it shows of `es`. -/
theorem visits_prefixIterator {src : σ} {es : List (Bytes × Bytes)} (h : Visits src es) :
    Visits (⟨p, src, false⟩ : PrefixIterator σ) (visible p es) ∧
      ∃ pi, validate (⟨p, src, false⟩ : PrefixIterator σ) = .ok pi ∧ Visits pi (visible p es) := by
  induction h with
  | @nil it it' hv =>
    have hval : validate (⟨p, it, false⟩ : PrefixIterator σ) = .ok ⟨p, DBIterator.close it', true⟩ := by
      simp [validate, hv]
    exact ⟨visits_of_validate_invalid p hval, _, hval, visits_invalid p _⟩
  | @cons it it' e es hv hk hval hn _ ih =>
    by_cases he : p <+: e.1
    · have hvalid : validate (⟨p, it, false⟩ : PrefixIterator σ) = .ok ⟨p, it, false⟩ := by
        simp [validate, hv, hk, he]
      obtain ⟨pi, hpi, hvis⟩ := ih.2
      have hcons : Visits (⟨p, it, false⟩ : PrefixIterator σ) (visible p (e :: es)) := by
        rw [visible, List.takeWhile_cons, if_pos (decide_eq_true he), List.map_cons]
        exact .cons (by simp [DBIterator.valid, valid, hvalid, hv])
          (by simp [DBIterator.key, key, hk, Prefix.suffix, he.length_le, localEntry])
          (by simp [DBIterator.value, value, hval, localEntry]) (by simp [DBIterator.next, next, hn, hpi]) hvis
      exact ⟨hcons, _, hvalid, hcons⟩
    · have hvalid : validate (⟨p, it, false⟩ : PrefixIterator σ) = .ok ⟨p, DBIterator.close it, true⟩ := by
        simp [validate, hv, hk, he]
      have hnil : visible p (e :: es) = [] := by simp [visible, List.takeWhile_cons, he]
      rw [hnil]
      exact ⟨visits_of_validate_invalid p hvalid, _, hvalid, visits_invalid p _⟩

/-- Once `Valid()` is false it stays false, and `Key`, `Value` and `Next` panic. -/
theorem invalid_of_valid_false {pi pi' : PrefixIterator ListIterator}
    (h : DBIterator.valid pi = .ok (false, pi')) : pi'.invalid = true := by
  rcases pi with ⟨p, ⟨_ | ⟨e, es⟩, _ | _⟩, _ | _⟩ <;> simp [DBIterator.valid, valid, validate] at h
  all_goals try (subst h; rfl)
  by_cases he : p <+: e.1 <;> simp [he] at h
  subst h; rfl

end PrefixIterator

/-! ### Forward iteration -/

namespace Prefix

/-- The physical end of `Prefix.Iterator`: `Above()` when `end` is `nil`. -/
def forwardEnd (p : Option Prefix) («end» : Option Bytes) : Option Bytes :=
  match «end» with
  | none => (p.getD []).above
  | some e => keySlice p (some e)

private theorem iterator_eq {σ : Type} [DBIterator σ] (p : Option Prefix) (iteratorFn : Option Bytes → Option Bytes → σ)
    (start «end» : Option Bytes) :
    Prefix.iterator p iteratorFn start «end» =
      ⟨p.getD [], iteratorFn (keySlice p start) (forwardEnd p «end»), false⟩ := by
  cases «end» <;> rfl

private theorem prefix_of_inRange {p k : Prefix} {start «end» : Option Bytes}
    (h : inRange (keySlice (some p) start) (forwardEnd (some p) «end») k) : p <+: k := by
  simp only [inRange, keySlice_some, Option.all_some, Bool.and_eq_true, decide_eq_true_eq] at h
  have hp : p ≤ k := (Bytes.le_append p _).trans h.1
  rcases «end» with _ | e
  · cases ha : p.above with
    | none => exact prefix_of_above_eq_none ha hp
    | some a =>
      simp only [forwardEnd, Option.getD_some, ha, Option.all_some, decide_eq_true_eq] at h
      exact prefix_of_lt_above ha hp h.2
  · simp only [forwardEnd, keySlice_some, Option.getD_some, Option.all_some, decide_eq_true_eq] at h
    exact Bytes.prefix_of_between h.1 h.2

private theorem inRange_key (p : Prefix) (start «end» : Option Bytes) (k : Bytes) :
    inRange (keySlice (some p) start) (forwardEnd (some p) «end») (p ++ k) = inRange start «end» k := by
  have hs : decide (p ++ start.getD [] ≤ p ++ k) = start.all fun s => decide (s ≤ k) := by
    cases start <;> simp [Bytes.append_le_append_iff, Bytes.le_append]
  rcases «end» with _ | e
  · cases ha : p.above with
    | none => simp [inRange, hs, ha, forwardEnd]
    | some a => simp [inRange, hs, ha, append_lt_above ha, forwardEnd]
  · simp [inRange, hs, Bytes.append_lt_append_iff, forwardEnd]

private theorem inRange_none (start «end» : Option Bytes) (k : Bytes) :
    inRange (keySlice none start) (forwardEnd none «end») k =
      inRange start (if «end» = some [] then none else «end») k := by
  have hend : forwardEnd none «end» = keySlice none «end» := by cases «end» <;> rfl
  rw [hend, keySlice_none, keySlice_none]
  rcases start with _ | s
  · rfl
  · by_cases hs : s = [] <;> simp [inRange, hs, Bytes.le_append [] k]

end Prefix

private theorem map_filter_eq_filter_view (p : Prefix) (inPhysical inLocal : Bytes → Bool)
    (hunder : ∀ k, inPhysical k → p <+: k) (hkey : ∀ k, inPhysical (p ++ k) = inLocal k) (es : List (Bytes × Bytes)) :
    (es.filter fun e => inPhysical e.1).map (PrefixIterator.localEntry p) =
      (es.filterMap (stripEntry p)).filter fun e => inLocal e.1 := by
  induction es with
  | nil => rfl
  | cons e es ih =>
    obtain ⟨k, v⟩ := e
    by_cases hk : p <+: k
    · obtain ⟨t, rfl⟩ := hk
      cases hl : inLocal t <;> simp [List.filter_cons, stripEntry, hkey, hl, ih, PrefixIterator.localEntry]
    · have hp : inPhysical k = false := Bool.eq_false_iff.2 fun h => hk (hunder k h)
      simp [List.filter_cons, stripEntry, hk, hp, ih]

/-- `p.Iterator(iteratorFn, start, end)` over the ranges of a backend visits the entries of `view p M` in
`[start, end)`. -/
theorem visits_iterator {σ : Type} [DBIterator σ] (p : Prefix) (M : KVStore)
    {iteratorFn : Option Bytes → Option Bytes → σ}
    (hfn : ∀ start «end», Visits (iteratorFn start «end») (M.entries.filter fun e => inRange start «end» e.1))
    (start «end» : Option Bytes) :
    Visits (Prefix.iterator (some p) iteratorFn start «end»)
      ((view p M).entries.filter fun e => inRange start «end» e.1) := by
  have h := (PrefixIterator.visits_prefixIterator p
    (hfn (Prefix.keySlice (some p) start) (Prefix.forwardEnd (some p) «end»))).1
  have hunder := fun k => @Prefix.prefix_of_inRange p k start «end»
  rw [Prefix.iterator_eq]
  rwa [PrefixIterator.visible, List.takeWhile_eq_self_iff.2 fun (e : Bytes × Bytes) he =>
    decide_eq_true (hunder e.1 (List.mem_filter.1 he).2),
    map_filter_eq_filter_view p _ _ hunder (Prefix.inRange_key p start «end») M.entries] at h

/-- The loop over `p.Iterator(M.Iterator, start, end)` yields the range `[start, end)` of the view of `p`. -/
theorem drain_iterator (M : KVStore) (p : Prefix) (start «end» : Option Bytes) (extra : Nat) :
    drain (M.entries.length + 1 + extra) (Prefix.iterator (some p) M.iterator start «end») =
      .ok ((view p M).entries.filter fun e => inRange start «end» e.1) := by
  refine drain_of_visits (visits_iterator p M (fun _ _ => visits_listIterator _) start «end») ?_
  calc _ ≤ (view p M).entries.length := List.length_filter_le _ _
    _ ≤ M.entries.length := List.length_filterMap_le _ _
    _ < _ := by omega

/-- Under the `nil` prefix the loop yields the range of the backend, an empty `end` read as no bound. -/
theorem drain_iterator_none (M : KVStore) (start «end» : Option Bytes) (extra : Nat) :
    drain (M.entries.length + 1 + extra) (Prefix.iterator none M.iterator start «end») =
      .ok (M.entries.filter fun e => inRange start (if «end» = some [] then none else «end») e.1) := by
  have h := (PrefixIterator.visits_prefixIterator [] (visits_listIterator
    (M.entries.filter fun e => inRange (Prefix.keySlice none start) (Prefix.forwardEnd none «end») e.1))).1
  rw [PrefixIterator.visible_nil, List.filter_congr fun e _ => Prefix.inRange_none start «end» e.1] at h
  rw [Prefix.iterator_eq, KVStore.iterator, List.filter_congr fun e _ => Prefix.inRange_none start «end» e.1]
  exact drain_of_visits h ((List.length_filter_le _ _).trans_lt (by omega))

/-- Forward prefixed iteration is iteration of the logical sub-store: for every backend, prefix that is not
`nil` and bounds, the loop over `p.Iterator(M.Iterator, start, end)` returns, without panicking, the entries of
`view p M` in `[start, end)`, ascending.  Under the `nil` prefix an empty `end` is no bound.  Once `Valid()` has
returned false it stays false, while `Key`, `Value` and `Next` panic. -/
theorem prefixIterator_yields_view_range :
    (∀ (M : KVStore) (p : Prefix) (start «end» : Option Bytes) (extra : Nat),
      drain (M.entries.length + 1 + extra) (Prefix.iterator (some p) M.iterator start «end») =
        .ok ((view p M).entries.filter fun e => inRange start «end» e.1)) ∧
    (∀ (M : KVStore) (start «end» : Option Bytes) (extra : Nat),
      drain (M.entries.length + 1 + extra) (Prefix.iterator none M.iterator start «end») =
        .ok (M.entries.filter fun e => inRange start (if «end» = some [] then none else «end») e.1)) ∧
    (∀ pi pi' : PrefixIterator ListIterator, DBIterator.valid pi = .ok (false, pi') →
      DBIterator.valid pi' = .ok (false, pi') ∧ (∀ r, DBIterator.next pi' ≠ .ok r) ∧
        (∀ k, DBIterator.key pi' ≠ .ok k) ∧ ∀ v, DBIterator.value pi' ≠ .ok v) := by
  refine ⟨drain_iterator, drain_iterator_none, fun pi pi' h => ?_⟩
  obtain ⟨p, src, inv⟩ := pi'
  obtain rfl : inv = true := PrefixIterator.invalid_of_valid_false h
  refine ⟨rfl, ?_, ?_, ?_⟩ <;> intro _ h' <;> cases h'

theorem prefixIterator_yields_view_range_exhausted :
    DBIterator.valid (⟨[1], ⟨[], false⟩, false⟩ : PrefixIterator ListIterator) = .ok (false, ⟨[1], ⟨[], true⟩, true⟩) ∧
      DBIterator.valid (⟨[1], ⟨[], true⟩, true⟩ : PrefixIterator ListIterator) = .ok (false, ⟨[1], ⟨[], true⟩, true⟩) :=
  ⟨rfl, (prefixIterator_yields_view_range.2.2 ⟨[1], ⟨[], false⟩, false⟩ _ rfl).1⟩

/-- A backend holding only the empty key. -/
def emptyKeyStore : KVStore := ⟨[([], [1])], List.pairwise_singleton _ _⟩

/-- Under the `nil` prefix the loop past the empty `end` yields the empty key, which the view's range lacks. -/
theorem prefixIterator_nil_prefix_ignores_empty_end :
    drain 2 (Prefix.iterator none emptyKeyStore.iterator none (some [])) = .ok [([], [1])] ∧
      ((view [] emptyKeyStore).entries.filter fun e => inRange none (some []) e.1) = [] :=
  ⟨rfl, rfl⟩

/-! ### Reverse iteration -/

private theorem takeWhile_eq_filter_of_pairwise {α : Type} {P : α → Bool} {l : List α}
    (h : l.Pairwise fun x y => P y → P x) : l.takeWhile P = l.filter P := by
  induction l with
  | nil => rfl
  | cons a l ih =>
    rw [List.pairwise_cons] at h
    by_cases ha : P a
    · rw [List.takeWhile_cons_of_pos ha, List.filter_cons_of_pos ha, ih h.2]
    · rw [List.takeWhile_cons_of_neg ha, List.filter_cons_of_neg ha]
      exact (List.filter_eq_nil_iff.2 fun y hy hPy => ha (h.1 y hy hPy)).symm

private theorem KVStore.pairwise_reverse_filter (M : KVStore) (P : Bytes × Bytes → Bool) :
    (M.entries.filter P).reverse.Pairwise fun x y => y.1 < x.1 :=
  List.pairwise_reverse.2 (M.sorted.sublist (List.filter_sublist _))

namespace Prefix

/-- The physical top of `Prefix.ReverseIterator`: `Above()` when `start` is `nil`. -/
def reverseStart (p : Option Prefix) (start : Option Bytes) : Option Bytes :=
  match start with
  | none => (p.getD []).above
  | some s => keySlice p (some s)

/-- The physical bottom of `Prefix.ReverseIterator`: `Below()` when `end` is `nil`. -/
def reverseEnd (p : Option Prefix) («end» : Option Bytes) : Option Bytes :=
  match «end» with
  | none => (p.getD []).below
  | some e => keySlice p (some e)

private theorem reverseIterator_eq {σ : Type} [DBIterator σ] (p : Option Prefix)
    (iteratorFn : Option Bytes → Option Bytes → σ) (start «end» : Option Bytes) :
    Prefix.reverseIterator p iteratorFn start «end» =
      (fun source => ⟨p.getD [], source, false⟩) <$>
        skipOne (iteratorFn (reverseStart p start) (reverseEnd p «end»)) (p.getD []).above := by
  cases start <;> cases «end» <;> rfl

private theorem inReverseRange_key (p : Prefix) (start «end» : Option Bytes) (k : Bytes) :
    inReverseRange (reverseStart (some p) start) (reverseEnd (some p) «end») (p ++ k) =
      inReverseRange start «end» k := by
  have hs : (reverseStart (some p) start).all (fun s => decide (p ++ k ≤ s)) =
      start.all fun s => decide (k ≤ s) := by
    rcases start with _ | s <;> simp only [reverseStart, Option.getD_some, keySlice_some]
    · cases ha : p.above with
      | none => rfl
      | some a => simp [(append_lt_above ha k).le]
    · simp [Bytes.append_le_append_iff]
  unfold inReverseRange
  rw [hs]
  rcases «end» with _ | e
  all_goals simp only [reverseEnd, Option.getD_some, keySlice_some]
  · cases hb : p.below with
    | none => rfl
    | some b => simp [below_lt_append hb k]
  · simp [Bytes.append_lt_append_iff]

private theorem le_above_of_inReverseRange {p a k : Prefix} (ha : p.above = some a) {start «end» : Option Bytes}
    (h : inReverseRange (reverseStart (some p) start) «end» k) : k ≤ a := by
  simp only [inReverseRange, Bool.and_eq_true] at h
  rcases start with _ | s <;> simp only [reverseStart, Option.getD_some, keySlice_some] at h
  · simpa [ha] using h.1
  · have hs : k ≤ p ++ s := by simpa using h.1
    exact hs.trans (append_lt_above ha s).le

private theorem not_prefix_above_getD {p : Prefix} (hp : p ≠ []) : ¬ p <+: p.above.getD [] := by
  cases ha : p.above with
  | none => simpa using hp
  | some a =>
    rintro ⟨t, ht⟩
    have h := append_lt_above ha t
    rw [ht] at h
    exact lt_irrefl a h

/-- `SkipsOne k es es'`: `es'` is what `skipOne` leaves of `es`, without its first entry if that entry's key is `k`. -/
def SkipsOne (k : Bytes) (es es' : List (Bytes × Bytes)) : Prop :=
  (es' = es ∧ ∀ e ∈ es.head?, e.1 ≠ k) ∨ ∃ e, es = e :: es' ∧ e.1 = k

namespace SkipsOne

variable {k : Bytes} {es es' : List (Bytes × Bytes)}

private theorem sublist (h : SkipsOne k es es') : List.Sublist es' es := by
  rcases h with ⟨rfl, -⟩ | ⟨e, rfl, -⟩
  · exact List.Sublist.refl _
  · exact List.sublist_cons_self _ _

private theorem filter_eq {P : Bytes × Bytes → Bool} (h : SkipsOne k es es') (hk : ∀ v, P (k, v) = false) :
    es'.filter P = es.filter P := by
  rcases h with ⟨rfl, -⟩ | ⟨⟨k', v⟩, rfl, rfl⟩
  · rfl
  · rw [List.filter_cons_of_neg (by simp [hk])]

private theorem lt (h : SkipsOne k es es') (hs : es.Pairwise fun x y => y.1 < x.1) (hle : ∀ y ∈ es, y.1 ≤ k)
    {x : Bytes × Bytes} (hx : x ∈ es') : x.1 < k := by
  rcases h with ⟨h, hhead⟩ | ⟨e, rfl, rfl⟩
  · rw [h] at hx
    cases es with
    | nil => cases hx
    | cons e es =>
      rcases List.mem_cons.1 hx with rfl | hx
      · exact lt_of_le_of_ne (hle _ (List.mem_cons_self _ _)) (hhead _ rfl)
      · exact (List.rel_of_pairwise_cons hs hx).trans_le (hle e (List.mem_cons_self _ _))
  · exact List.rel_of_pairwise_cons hs hx

end SkipsOne

end Prefix

private theorem skipOne_listIterator (es : List (Bytes × Bytes)) (k : Option Bytes) :
    ∃ es', skipOne (⟨es, false⟩ : ListIterator) k = .ok ⟨es', false⟩ ∧ Prefix.SkipsOne (k.getD []) es es' := by
  cases es with
  | nil => exact ⟨[], rfl, .inl ⟨rfl, by simp⟩⟩
  | cons e es =>
    by_cases h : e.1 = k.getD []
    · exact ⟨es, by simp [skipOne, h], .inr ⟨e, rfl, h⟩⟩
    · exact ⟨e :: es, by simp [skipOne, h], .inl ⟨rfl, by simpa using h⟩⟩

namespace PrefixIterator

/-- Over a descending scan whose keys at or above `p` are under `p`, a prefix iterator shows those under `p`. -/
theorem visible_eq_filter {p : Prefix} {es : List (Bytes × Bytes)} (hs : es.Pairwise fun x y => y.1 < x.1)
    (hk : ∀ x ∈ es, p ≤ x.1 → p <+: x.1) :
    visible p es = (es.filter fun e => decide (p <+: e.1)).map (localEntry p) := by
  rw [visible, takeWhile_eq_filter_of_pairwise (hs.imp_of_mem fun {x y} hx _ hxy hy => ?_)]
  obtain ⟨t, ht⟩ := of_decide_eq_true hy
  exact decide_eq_true (hk x hx ((ht ▸ Bytes.le_append p t).trans hxy.le))

end PrefixIterator

namespace Prefix

private theorem drain_reverseIterator_visible (M : KVStore) (p : Option Prefix) (start «end» : Option Bytes)
    (extra : Nat) :
    ∃ L₁, (Prefix.reverseIterator p M.reverseIterator start «end» >>= drain (M.entries.length + 1 + extra)) =
        .ok (PrefixIterator.visible (p.getD []) L₁) ∧
      SkipsOne ((p.getD []).above.getD [])
        (M.entries.filter fun e => inReverseRange (reverseStart p start) (reverseEnd p «end») e.1).reverse L₁ := by
  obtain ⟨L₁, hskip, hL₁⟩ := skipOne_listIterator
    (M.entries.filter fun e => inReverseRange (reverseStart p start) (reverseEnd p «end») e.1).reverse
    (p.getD []).above
  refine ⟨L₁, ?_, hL₁⟩
  rw [reverseIterator_eq, KVStore.reverseIterator, hskip, except_map_ok, except_ok_bind]
  refine drain_of_visits (PrefixIterator.visits_prefixIterator _ (visits_listIterator L₁)).1 ?_
  calc (PrefixIterator.visible _ L₁).length ≤ L₁.length :=
        (List.length_map _ _).trans_le (List.takeWhile_sublist _).length_le
    _ ≤ M.entries.length := hL₁.sublist.length_le.trans (by simpa using List.length_filter_le _ _)
    _ < _ := by omega

private theorem prefix_of_mem_reverseScan {M : KVStore} {p : Prefix} {start «end» : Option Bytes}
    {L₁ : List (Bytes × Bytes)} (h : SkipsOne (p.above.getD [])
      (M.entries.filter fun e =>
        inReverseRange (reverseStart (some p) start) (reverseEnd (some p) «end») e.1).reverse L₁)
    {x : Bytes × Bytes} (hx : x ∈ L₁) (hpx : p ≤ x.1) : p <+: x.1 := by
  cases ha : p.above with
  | none => exact prefix_of_above_eq_none ha hpx
  | some a =>
    rw [ha] at h
    refine (le_lt_above_iff ha x.1).1 ⟨hpx, h.lt (KVStore.pairwise_reverse_filter _ _) (fun y hy => ?_) hx⟩
    exact le_above_of_inReverseRange ha (List.mem_filter.1 (List.mem_reverse.1 hy)).2

/-- Reverse prefixed iteration of a non-empty prefix is reverse iteration of the logical sub-store. -/
theorem drain_reverseIterator (M : KVStore) {p : Prefix} (hp : p ≠ []) (start «end» : Option Bytes) (extra : Nat) :
    (Prefix.reverseIterator (some p) M.reverseIterator start «end» >>= drain (M.entries.length + 1 + extra)) =
      .ok ((view p M).entries.filter fun e => inReverseRange start «end» e.1).reverse := by
  obtain ⟨L₁, hdrain, hL₁⟩ := drain_reverseIterator_visible M (some p) start «end» extra
  simp only [Option.getD_some] at hdrain hL₁
  rw [hdrain, PrefixIterator.visible_eq_filter ((KVStore.pairwise_reverse_filter _ _).sublist hL₁.sublist)
    fun x hx => prefix_of_mem_reverseScan hL₁ hx, hL₁.filter_eq fun v => by simpa using not_prefix_above_getD hp,
    List.filter_reverse, List.map_reverse, List.filter_filter,
    map_filter_eq_filter_view p
      (fun k => decide (p <+: k) && inReverseRange (reverseStart (some p) start) (reverseEnd (some p) «end») k)
      (fun k => inReverseRange start «end» k)
      (fun k hk => by simp only [Bool.and_eq_true, decide_eq_true_eq] at hk; exact hk.1)
      (fun k => by simp [inReverseRange_key]) M.entries]
  rfl

/-- Reverse iteration of an empty prefix is the physical scan, except that `skipOne` drops an empty first key. -/
theorem drain_reverseIterator_emptyPrefix (M : KVStore) {p : Option Prefix} (hp : p.getD [] = [])
    (start «end» : Option Bytes) (extra : Nat) :
    (Prefix.reverseIterator p M.reverseIterator start «end» >>= drain (M.entries.length + 1 + extra)) =
      .ok (let es :=
          (M.entries.filter fun e => inReverseRange (reverseStart p start) (reverseEnd p «end») e.1).reverse
        if es.map Prod.fst = [[]] then [] else es) := by
  obtain ⟨L₁, hdrain, hL₁⟩ := drain_reverseIterator_visible M p start «end» extra
  rw [hdrain, hp, PrefixIterator.visible_nil]
  rw [hp] at hL₁
  dsimp only
  rcases hL₁ with ⟨rfl, hhead⟩ | ⟨e, hes, he⟩
  · rw [if_neg fun hmap => ?_]
    obtain ⟨e, _, hes, he, -⟩ := List.map_eq_cons_iff.1 hmap
    exact hhead e (by rw [hes]; rfl) he
  · replace he : e.1 = [] := he
    have hp : (e :: L₁).Pairwise fun x y => y.1 < x.1 := hes ▸ KVStore.pairwise_reverse_filter _ _
    have hnil : L₁ = [] := List.eq_nil_iff_forall_not_mem.2 fun x hx => by
      have hlt : x.1 < e.1 := List.rel_of_pairwise_cons hp hx
      rw [he] at hlt
      exact List.Lex.not_nil_right _ _ hlt
    rw [hes, hnil, if_pos (by simp [he])]

/-- The empty prefix that is not `nil` scans the local range itself. -/
theorem drain_reverseIterator_empty (M : KVStore) (start «end» : Option Bytes) (extra : Nat) :
    (Prefix.reverseIterator (some []) M.reverseIterator start «end» >>= drain (M.entries.length + 1 + extra)) =
      .ok (let es := (M.entries.filter fun e => inReverseRange start «end» e.1).reverse
        if es.map Prod.fst = [[]] then [] else es) := by
  have hs : reverseStart (some []) start = start := by cases start <;> rfl
  have he : reverseEnd (some []) «end» = «end» := by cases «end» <;> rfl
  rw [drain_reverseIterator_emptyPrefix M (p := some []) rfl, hs, he]

/-- Under the `nil` prefix `Key` of an empty bound is `nil`, so the scan reads an empty bound as no bound. -/
theorem drain_reverseIterator_none (M : KVStore) (start «end» : Option Bytes) (extra : Nat) :
    (Prefix.reverseIterator none M.reverseIterator start «end» >>= drain (M.entries.length + 1 + extra)) =
      .ok (let es := (M.entries.filter fun e =>
          inReverseRange (if start = some [] then none else start)
            (if «end» = some [] then none else «end») e.1).reverse
        if es.map Prod.fst = [[]] then [] else es) := by
  have hs : reverseStart none start = keySlice none start := by cases start <;> rfl
  have he : reverseEnd none «end» = keySlice none «end» := by cases «end» <;> rfl
  rw [drain_reverseIterator_emptyPrefix M (p := none) rfl, hs, he, keySlice_none, keySlice_none]

end Prefix

/-- Reverse prefixed iteration is reverse iteration of the logical sub-store, except at the empty key of an
empty prefix: for a non-empty prefix the loop over `p.ReverseIterator(M.ReverseIterator, start, end)` returns the
entries of `view p M` with `end < key ≤ start`, descending; for an empty one those of the backend, less a lone
empty key, an empty bound being no bound under the `nil` prefix. -/
theorem reverseIterator_yields_view_range :
    (∀ (M : KVStore) (p : Prefix) (start «end» : Option Bytes) (extra : Nat), p ≠ [] →
      (Prefix.reverseIterator (some p) M.reverseIterator start «end» >>= drain (M.entries.length + 1 + extra)) =
        .ok ((view p M).entries.filter fun e => inReverseRange start «end» e.1).reverse) ∧
    (∀ (M : KVStore) (start «end» : Option Bytes) (extra : Nat),
      (Prefix.reverseIterator (some []) M.reverseIterator start «end» >>= drain (M.entries.length + 1 + extra)) =
        .ok (let es := (M.entries.filter fun e => inReverseRange start «end» e.1).reverse
          if es.map Prod.fst = [[]] then [] else es)) ∧
    (∀ (M : KVStore) (start «end» : Option Bytes) (extra : Nat),
      (Prefix.reverseIterator none M.reverseIterator start «end» >>= drain (M.entries.length + 1 + extra)) =
        .ok (let es := (M.entries.filter fun e =>
            inReverseRange (if start = some [] then none else start)
              (if «end» = some [] then none else «end») e.1).reverse
          if es.map Prod.fst = [[]] then [] else es)) :=
  ⟨fun M _ start «end» extra hp => Prefix.drain_reverseIterator M hp start «end» extra,
    Prefix.drain_reverseIterator_empty, Prefix.drain_reverseIterator_none⟩

/-- A backend with a key below the prefix `[1]`, two keys under it, and the key `Above() = [2]`. -/
def siblingStore : KVStore := ⟨[([0], [0]), ([1], [1]), ([1, 5], [2]), ([2], [3])], by decide⟩

theorem reverseIterator_yields_view_range_siblingStore :
    [1] ≠ ([] : Prefix) ∧
      (Prefix.reverseIterator (some [1]) siblingStore.reverseIterator none none >>= drain 5) =
        .ok [([5], [2]), ([], [1])] :=
  ⟨by decide, (reverseIterator_yields_view_range.1 siblingStore [1] none none 0 (by decide)).trans rfl⟩

/-! ### Reverse iteration at the empty prefix -/

/-- For an empty prefix, `nil` or not, `skipOne` compares the first key with `Above() = nil`, the empty key to
`bytes.Equal`: over a backend of only the empty key the reverse iteration yields nothing, while the view has it. -/
theorem reverseIterator_empty_prefix_skips_empty_key :
    (Prefix.reverseIterator (some []) emptyKeyStore.reverseIterator none none >>= drain 2) = .ok [] ∧
      (Prefix.reverseIterator none emptyKeyStore.reverseIterator none none >>= drain 2) = .ok [] ∧
      ((view [] emptyKeyStore).entries.filter fun e => inReverseRange none none e.1).reverse = [([], [1])] :=
  ⟨rfl, rfl, rfl⟩

end BurrowState
