/-
  FILTERS IN THE QDRANT FORM and their translation (pkg/index/payload/filter.go), which takes the first test
  of a condition and the first bound of a range.
-/
import LimyeDB.Payload.Filter

namespace LimyeDB.Payload

open Go List

/-! ## The form -/

structure Match where
  value : Value
  any : List Value
  text : String

structure QRange where
  lt : Option ℚ
  lte : Option ℚ
  gt : Option ℚ
  gte : Option ℚ

structure QdrantCondition where
  field : String
  hit : Option Match
  range : Option QRange
  isNull : Option Bool

structure QdrantFilter where
  must : List QdrantCondition
  should : List QdrantCondition
  mustNot : List QdrantCondition

/-! ## The translation -/

def Match.toCondition (m : Match) : Option Condition :=
  if !m.value.isNull then some (.eq m.value)
  else if !m.any.isEmpty then some (.isIn m.any)
  else if m.text ≠ "" then some (.contains m.text)
  else none

def QRange.toCondition (r : QRange) : Option Condition :=
  match r.lt, r.lte, r.gt, r.gte with
  | some a, _, _, _ => some (.lt (.num a))
  | none, some a, _, _ => some (.lte (.num a))
  | none, none, some a, _ => some (.gt (.num a))
  | none, none, none, some a => some (.gte (.num a))
  | none, none, none, none => none

/-- The first of the three that is given. -/
def QdrantCondition.toCondition (c : QdrantCondition) : Option Condition :=
  match c.isNull, c.hit, c.range with
  | some true, _, _ => some (.ofValue .isNull .null)
  | some false, _, _ => some (.ofValue .isNotNull .null)
  | none, some m, _ => m.toCondition
  | none, none, some r => r.toCondition
  | none, none, none => none

def conditionToFilter (c : QdrantCondition) : Filter :=
  .node .field c.field c.toCondition []

def toFilter : Option QdrantFilter → Filter
  | none => .nil
  | some q =>
    let must := q.must.map conditionToFilter
    let should := if q.should.isEmpty then [] else [Filter.or (q.should.map conditionToFilter)]
    let mustNot := q.mustNot.map fun c => Filter.not (conditionToFilter c)
    .node .and "" none (must ++ should ++ mustNot)

/-! ## What the form says -/

section Meaning

variable (A : Folding)

def Match.holds (m : Match) (v : Value) : Bool :=
  if !m.value.isNull then same A v m.value
  else if !m.any.isEmpty then m.any.any (same A v)
  else if m.text ≠ "" then stringContains A v (.str m.text)
  else true

/-- Every bound, on a number. Without a bound there is nothing to test. -/
def QRange.holds (r : QRange) : Value → Bool
  | .num x => r.lt.all (fun a => decide (x < a)) && r.lte.all (fun a => decide (x ≤ a)) &&
      r.gt.all (fun a => decide (a < x)) && r.gte.all (fun a => decide (a ≤ x))
  | _ => r.lt.isNone && r.lte.isNone && r.gt.isNone && r.gte.isNone

def QdrantCondition.holds (c : QdrantCondition) (v : Value) : Bool :=
  c.isNull.all (fun b => v.isNull == b) && c.hit.all (fun m => m.holds A v) &&
    c.range.all fun r => r.holds v

def QdrantCondition.satisfied (payload : Object) (c : QdrantCondition) : Bool :=
  c.holds A (getFieldValue c.field payload)

/-- **What a filter says**: every must, one should if there are any, and no must_not. -/
def QdrantFilter.satisfied (payload : Object) : Option QdrantFilter → Prop
  | none => True
  | some q => (∀ c ∈ q.must, c.satisfied A payload = true) ∧
      (q.should ≠ [] → ∃ c ∈ q.should, c.satisfied A payload = true) ∧
      ∀ c ∈ q.mustNot, c.satisfied A payload = false

/-- The value of the field is compared for equality with a list and is one, or with an object. -/
def Match.clash (m : Match) (v : Value) : Bool :=
  if !m.value.isNull then clashes v m.value else m.any.any (clashes v)

/-- On this value the bounds behind the first one follow from it, and a value that is no number does
    not pass the first one. -/
def QRange.Kept (r : QRange) : Value → Prop
  | .num x =>
    match r.lt, r.lte, r.gt, r.gte with
    | some a, lte, gt, gte => x < a →
        (∀ b ∈ lte, x ≤ b) ∧ (∀ b ∈ gt, b < x) ∧ ∀ b ∈ gte, b ≤ x
    | none, some a, gt, gte => x ≤ a → (∀ b ∈ gt, b < x) ∧ ∀ b ∈ gte, b ≤ x
    | none, none, some a, gte => a < x → ∀ b ∈ gte, b ≤ x
    | none, none, none, _ => True
  | _ => r.lt.isSome ∨ r.lte = none ∧ (r.gt.isSome ∨ r.gte = none)

/-- **What the translation leaves out follows from what it keeps**, on this value. -/
def QdrantCondition.Kept (c : QdrantCondition) (v : Value) : Prop :=
  match c.isNull, c.hit, c.range with
  | some b, hit, range => v.isNull = b →
      (∀ m ∈ hit, m.holds A v = true) ∧ ∀ r ∈ range, r.holds v = true
  | none, some m, range => m.clash v = false ∧
      (m.holds A v = true → ∀ r ∈ range, r.holds v = true)
  | none, none, some r => r.Kept v
  | none, none, none => True

/-! ## One condition -/

variable {A}

/-- The meaning of the one test that the translation makes. -/
def QdrantCondition.tested (A : Folding) (c : QdrantCondition) (v : Value) : Bool :=
  c.toCondition.all fun cond => cond.meaning A v

def QdrantCondition.clash (c : QdrantCondition) (v : Value) : Bool :=
  c.toCondition.any fun cond => cond.clash v

theorem Match.toCondition_meaning (m : Match) (v : Value) :
    (m.toCondition.all fun cond => cond.meaning A v) = m.holds A v := by
  unfold Match.toCondition Match.holds
  split_ifs <;> rfl

theorem Match.toCondition_clash (m : Match) (v : Value) :
    (m.toCondition.any fun cond => cond.clash v) = m.clash v := by
  unfold Match.toCondition Match.clash
  split_ifs with hvalue hany
  · rfl
  · rfl
  · simp_all [Condition.contains, Condition.ofValue, Condition.clash]
  · simp_all

theorem QRange.toCondition_clash (r : QRange) (v : Value) :
    (r.toCondition.any fun cond => cond.clash v) = false := by
  obtain ⟨lt, lte, gt, gte⟩ := r
  cases lt <;> cases lte <;> cases gt <;> cases gte <;> rfl

theorem compareNumeric_tests (x a : ℚ) :
    (decide (compareNumeric (.num x) (.num a) < 0) = decide (x < a)) ∧
    (decide (compareNumeric (.num x) (.num a) ≤ 0) = decide (x ≤ a)) ∧
    (decide (0 < compareNumeric (.num x) (.num a)) = decide (a < x)) ∧
    (decide (0 ≤ compareNumeric (.num x) (.num a)) = decide (a ≤ x)) := by
  obtain ⟨hgt, hlt⟩ := compareNumeric_num x a
  refine ⟨decide_eq_decide.mpr hlt, decide_eq_decide.mpr ?_, decide_eq_decide.mpr hgt,
    decide_eq_decide.mpr ?_⟩
  · rw [← not_lt, hgt, not_lt]
  · rw [← not_lt, hlt, not_lt]

theorem eq_and_iff (b c : Bool) : b = (b && c) ↔ (b = true → c = true) := by
  cases b <;> cases c <;> simp

theorem QRange.kept_iff (r : QRange) (v : Value) :
    (r.toCondition.all fun cond => cond.meaning A v) = r.holds v ↔ r.Kept v := by
  obtain ⟨lt, lte, gt, gte⟩ := r
  cases v with
  | num x =>
    cases lt with
    | some a =>
      have htest : (Condition.lt (.num a)).meaning A (.num x) = decide (x < a) :=
        (compareNumeric_tests x a).1
      simp only [QRange.toCondition, Option.all_some, htest, QRange.holds, Bool.and_assoc,
        eq_and_iff, QRange.Kept]
      simp [Option.all_eq_true]
    | none =>
      cases lte with
      | some a =>
        have htest : (Condition.lte (.num a)).meaning A (.num x) = decide (x ≤ a) :=
          (compareNumeric_tests x a).2.1
        simp only [QRange.toCondition, Option.all_some, Option.all_none, htest, QRange.holds,
          Bool.and_assoc, Bool.true_and, eq_and_iff, QRange.Kept]
        simp [Option.all_eq_true]
      | none =>
        cases gt with
        | some a =>
          have htest : (Condition.gt (.num a)).meaning A (.num x) = decide (a < x) :=
            (compareNumeric_tests x a).2.2.1
          simp only [QRange.toCondition, Option.all_some, Option.all_none, htest, QRange.holds,
            Bool.true_and, eq_and_iff, QRange.Kept]
          simp [Option.all_eq_true]
        | none =>
          cases gte with
          | some a =>
            have htest : (Condition.gte (.num a)).meaning A (.num x) = decide (a ≤ x) :=
              (compareNumeric_tests x a).2.2.2
            simp [QRange.toCondition, htest, QRange.holds, QRange.Kept]
          | none => simp [QRange.toCondition, QRange.holds, QRange.Kept]
  | _ => cases lt <;> cases lte <;> cases gt <;> cases gte <;>
      simp [QRange.toCondition, QRange.holds, QRange.Kept, Condition.meaning, Condition.lt,
        Condition.lte, Condition.gt, Condition.gte, Condition.ofValue, compareNumeric, toFloat64]

theorem QdrantCondition.kept_iff (c : QdrantCondition) (v : Value) :
    (c.clash v = false ∧ c.tested A v = c.holds A v) ↔ c.Kept A v := by
  obtain ⟨field, hit, range, isNull⟩ := c
  cases isNull with
  | some b =>
    have htested : QdrantCondition.tested A ⟨field, hit, range, some b⟩ v = (v.isNull == b) := by
      cases b
      · cases v <;> rfl
      · cases v <;> rfl
    have hclash : QdrantCondition.clash ⟨field, hit, range, some b⟩ v = false := by
      cases b <;> rfl
    rw [hclash, htested]
    simp only [QdrantCondition.holds, Option.all_some, Bool.and_assoc, eq_and_iff, true_and,
      QdrantCondition.Kept]
    simp [Option.all_eq_true]
  | none =>
    cases hit with
    | some m =>
      simp only [QdrantCondition.clash, QdrantCondition.tested, QdrantCondition.toCondition,
        m.toCondition_clash, m.toCondition_meaning, QdrantCondition.holds, Option.all_some,
        Option.all_none, Bool.true_and, eq_and_iff, QdrantCondition.Kept]
      simp [Option.all_eq_true]
    | none =>
      cases range with
      | some r =>
        simp only [QdrantCondition.clash, QdrantCondition.tested, QdrantCondition.toCondition,
          r.toCondition_clash, QdrantCondition.holds, Option.all_some, Option.all_none,
          Bool.true_and, true_and, r.kept_iff, QdrantCondition.Kept]
      | none => simp [QdrantCondition.clash, QdrantCondition.tested, QdrantCondition.toCondition,
          QdrantCondition.holds, QdrantCondition.Kept]

/-! ## The whole filter -/

variable {payload : Object}

theorem evaluate_kept {c : QdrantCondition}
    (h : c.Kept A (getFieldValue c.field payload)) :
    evaluate A payload (conditionToFilter c) = .value (c.satisfied A payload) := by
  obtain ⟨hclash, htested⟩ := (c.kept_iff (A := A) _).mpr h
  have heval := evaluateCondition_eq (A := A) c.field c.toCondition payload
  rw [show (c.toCondition.any fun cond => cond.clash (getFieldValue c.field payload)) = false
    from hclash, show (c.toCondition.all fun cond => cond.meaning A (getFieldValue c.field payload))
    = c.holds A (getFieldValue c.field payload) from htested] at heval
  exact heval

theorem evaluateAnd_value {α : Type} {f : α → Filter} {b : α → Bool} {l : List α}
    (h : ∀ c ∈ l, evaluate A payload (f c) = .value (b c)) (rest : List Filter) :
    evaluateAnd A payload (l.map f ++ rest) =
      if l.all b then evaluateAnd A payload rest else .value false := by
  induction l with
  | nil => simp
  | cons c l ih =>
    rw [map_cons, cons_append, evaluateAnd, h c mem_cons_self, Outcome.value_bind,
      all_cons, ih fun d hd => h d (mem_cons_of_mem c hd)]
    cases b c <;> simp

theorem evaluateOr_value {α : Type} {f : α → Filter} {b : α → Bool} {l : List α}
    (h : ∀ c ∈ l, evaluate A payload (f c) = .value (b c)) :
    evaluateOr A payload (l.map f) = .value (l.any b) := by
  induction l with
  | nil => rfl
  | cons c l ih =>
    rw [map_cons, evaluateOr, h c mem_cons_self, Outcome.value_bind, any_cons,
      ih fun d hd => h d (mem_cons_of_mem c hd)]
    cases b c <;> rfl

def QdrantFilter.conditions : Option QdrantFilter → List QdrantCondition
  | none => []
  | some q => q.must ++ q.should ++ q.mustNot

theorem evaluate_toFilter {q : Option QdrantFilter}
    (h : ∀ c ∈ QdrantFilter.conditions q, c.Kept A (getFieldValue c.field payload)) :
    evaluate A payload (toFilter q) = .value true ↔ QdrantFilter.satisfied A payload q := by
  cases q with
  | none => exact iff_of_true rfl trivial
  | some q =>
    obtain ⟨must, should, mustNot⟩ := q
    have hmust : ∀ c ∈ must, evaluate A payload (conditionToFilter c) =
        .value (c.satisfied A payload) := fun c hc =>
      evaluate_kept (h c (by simp [QdrantFilter.conditions, hc]))
    have hshould : ∀ c ∈ should, evaluate A payload (conditionToFilter c) =
        .value (c.satisfied A payload) := fun c hc =>
      evaluate_kept (h c (by simp [QdrantFilter.conditions, hc]))
    have hnot : ∀ c ∈ mustNot, evaluate A payload (Filter.not (conditionToFilter c)) =
        .value (!c.satisfied A payload) := fun c hc => by
      rw [Filter.not, evaluate, evaluate_kept (h c (by simp [QdrantFilter.conditions, hc]))]
      rfl
    have hlast := evaluateAnd_value hnot []
    rw [List.append_nil] at hlast
    have hvalue : evaluate A payload (toFilter (some ⟨must, should, mustNot⟩)) =
        .value (must.all (fun c => c.satisfied A payload) &&
          ((should.isEmpty || should.any fun c => c.satisfied A payload) &&
            mustNot.all fun c => !c.satisfied A payload)) := by
      simp only [toFilter, evaluate, List.append_assoc, evaluateAnd_value hmust]
      cases should with
      | nil =>
        simp only [List.isEmpty_nil, if_true, List.nil_append, hlast, evaluateAnd]
        cases must.all fun c => c.satisfied A payload <;>
          cases mustNot.all (fun c => !c.satisfied A payload) <;> rfl
      | cons c should =>
        have hor : evaluate A payload (Filter.or ((c :: should).map conditionToFilter)) =
            .value ((c :: should).any fun c => c.satisfied A payload) := evaluateOr_value hshould
        simp only [List.isEmpty_cons, Bool.false_eq_true, if_false, List.singleton_append,
          evaluateAnd, hor, Outcome.value_bind, hlast]
        cases must.all fun c => c.satisfied A payload <;>
          cases (c :: should).any (fun c => c.satisfied A payload) <;>
            cases mustNot.all (fun c => !c.satisfied A payload) <;> rfl
    rw [hvalue, Outcome.value.injEq]
    simp only [Bool.and_eq_true, Bool.or_eq_true, List.all_eq_true, List.any_eq_true,
      List.isEmpty_iff, Bool.not_eq_true', QdrantFilter.satisfied, ne_eq, ← or_iff_not_imp_left]

/-- **The filters made of the conditions `C` pass exactly what they say, on this payload, if and only if each
    condition is kept.** -/
theorem toFilter_faithful_iff (A : Folding) (payload : Object) (C : Set QdrantCondition) :
    (∀ q, (∀ c ∈ QdrantFilter.conditions q, c ∈ C) →
      (evaluate A payload (toFilter q) = .value true ↔ QdrantFilter.satisfied A payload q)) ↔
    ∀ c ∈ C, c.Kept A (getFieldValue c.field payload) := by
  constructor
  · intro h c hc
    -- the condition alone, once as a must and once as a must_not
    have hmust := h (some ⟨[c], [], []⟩) (by simpa [QdrantFilter.conditions] using hc)
    have hnot := h (some ⟨[], [], [c]⟩) (by simpa [QdrantFilter.conditions] using hc)
    have heval : evaluate A payload (conditionToFilter c) =
        decides (c.clash (getFieldValue c.field payload))
          (c.tested A (getFieldValue c.field payload)) := evaluateCondition_eq ..
    rw [← c.kept_iff]
    simp only [toFilter, map_cons, map_nil, isEmpty_nil, if_true, append_nil,
      nil_append, evaluate, evaluateAnd, Filter.not, heval, QdrantFilter.satisfied,
      QdrantCondition.satisfied] at hmust hnot
    revert hmust hnot
    cases c.clash (getFieldValue c.field payload) <;>
      cases c.tested A (getFieldValue c.field payload) <;>
        cases hholds : c.holds A (getFieldValue c.field payload) <;> simp [decides, hholds]
  · intro h q hq
    exact evaluate_toFilter fun c hc => h c (hq c hc)

end Meaning

def priceBetween : QdrantCondition := ⟨"price", none, some ⟨some 20, none, some 10, none⟩, none⟩

/-- **The second bound of a range is dropped**: 5 passes a filter for prices between 10 and 20, and a missing
    price one from 10 on. -/
theorem toFilter_drops_bounds :
    evaluate asciiFolding [("price", .num 5)] (toFilter (some ⟨[priceBetween], [], []⟩)) =
      .value true ∧
    ¬ QdrantFilter.satisfied asciiFolding [("price", .num 5)] (some ⟨[priceBetween], [], []⟩) ∧
    evaluate asciiFolding [] (toFilter
      (some ⟨[⟨"price", none, some ⟨none, none, none, some 10⟩, none⟩], [], []⟩)) = .value true ∧
    ¬ QdrantFilter.satisfied asciiFolding []
      (some ⟨[⟨"price", none, some ⟨none, none, none, some 10⟩, none⟩], [], []⟩) := by
  refine ⟨by decide +kernel, fun h => ?_, by decide +kernel, fun h => ?_⟩
  · exact absurd (h.1 _ mem_cons_self) (by decide +kernel)
  · exact absurd (h.1 _ mem_cons_self) (by decide +kernel)

end LimyeDB.Payload
