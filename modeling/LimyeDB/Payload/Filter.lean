/-
  FILTERS ON PAYLOADS: the tree of conditions, and what the evaluator makes of it on a payload decoded from
  JSON.

  Numbers are rationals: finite floats compare as they do. `==` on two lists or two objects panics.
-/
import Mathlib.Data.Rat.Defs
import Mathlib.Algebra.Order.Ring.Rat
import LimyeDB.Go.Outcome

namespace LimyeDB.Payload

open Go Option

/-! ## Values -/

/-- A decoded value; null is also what a missing field has. The entries of an object are in any
    order, with each key once. -/
inductive Value where
  | null
  | bool (b : Bool)
  | num (x : ℚ)
  | str (s : String)
  | arr (items : List Value)
  | obj (entries : List (String × Value))
  deriving Repr

def Value.isNull : Value → Bool
  | .null => true
  | _ => false

abbrev Object := List (String × Value)

def Object.at (m : Object) (key : String) : Value := (m.lookup key).getD .null

def walk : Value → List String → Value
  | current, [] => current
  | .obj m, part :: parts => walk (Object.at m part) parts
  | _, _ :: _ => .null

def getFieldValue (field : String) (payload : Object) : Value :=
  walk (.obj payload) ((field.toList.splitOn '.').map String.ofList)

def toFloat64 : Value → Option ℚ
  | .num x => some x
  | _ => none

/-- Case folding of the standard library, of which nothing is assumed. -/
structure Folding where
  toLower : String → String
  equalFold : String → String → Bool

def asciiFolding : Folding where
  toLower s := String.ofList (s.toList.map Char.toLower)
  equalFold s t := s.toList.map Char.toLower = t.toList.map Char.toLower

/-! ## The tree -/

inductive Operator where
  | equal
  | notEqual
  | greater
  | greaterEqual
  | less
  | lessEqual
  | isIn
  | notIn
  | contains
  | startsWith
  | endsWith
  | isNull
  | isNotNull
  | range
  | unknown (op : String)
  deriving DecidableEq, Repr

structure Condition where
  op : Operator
  value : Value
  values : List Value
  min : Value
  max : Value

inductive FilterType where
  | and
  | or
  | not
  | field
  | unknown (type : String)
  deriving DecidableEq, Repr

/-- `nil` is the nil pointer. -/
inductive Filter where
  | nil
  | node (type : FilterType) (field : String) (condition : Option Condition)
      (filters : List Filter)

namespace Filter

def and (filters : List Filter) : Filter := .node .and "" none filters
def or (filters : List Filter) : Filter := .node .or "" none filters
def not (filter : Filter) : Filter := .node .not "" none [filter]
def ofField (name : String) (cond : Condition) : Filter := .node .field name (some cond) []

end Filter

namespace Condition

def ofValue (op : Operator) (value : Value) : Condition := ⟨op, value, [], .null, .null⟩

def eq (value : Value) : Condition := ofValue .equal value
def ne (value : Value) : Condition := ofValue .notEqual value
def gt (value : Value) : Condition := ofValue .greater value
def gte (value : Value) : Condition := ofValue .greaterEqual value
def lt (value : Value) : Condition := ofValue .less value
def lte (value : Value) : Condition := ofValue .lessEqual value
def isIn (values : List Value) : Condition := ⟨.isIn, .null, values, .null, .null⟩
def notIn (values : List Value) : Condition := ⟨.notIn, .null, values, .null, .null⟩
def contains (value : String) : Condition := ofValue .contains (.str value)
def startsWith (value : String) : Condition := ofValue .startsWith (.str value)
def endsWith (value : String) : Condition := ofValue .endsWith (.str value)
def range (min max : Value) : Condition := ⟨.range, .null, [], min, max⟩

end Condition

/-! ## The evaluator -/

section Evaluate

variable (A : Folding)

/-- `a == b` on interfaces that are not nil: two of one type that cannot be compared panic. -/
def interfaceEq : Value → Value → Outcome Empty Bool
  | .bool a, .bool b => .value (a == b)
  | .num a, .num b => .value (decide (a = b))
  | .str a, .str b => .value (decide (a = b))
  | .arr _, .arr _ => .panic
  | .obj _, .obj _ => .panic
  | _, _ => .value false

def compareEqual (a b : Value) : Outcome Empty Bool :=
  match a, b with
  | .null, .null => .value true
  | .null, _ => .value false
  | _, .null => .value false
  | a, b =>
    match toFloat64 a, toFloat64 b with
    | some x, some y => .value (decide (x = y))
    | _, _ =>
      match a, b with
      | .str s, .str t => .value (A.equalFold s t)
      | a, b => interfaceEq a b

/-- 0 also if one of them is not a number. -/
def compareNumeric (a b : Value) : Int :=
  match toFloat64 a, toFloat64 b with
  | some x, some y => if x < y then -1 else if y < x then 1 else 0
  | _, _ => 0

def valueIn (value : Value) : List Value → Outcome Empty Bool
  | [] => .value false
  | v :: values => do
    if ← compareEqual A value v then return true
    valueIn value values

/-- The tests of a text for another one, both in lower case. -/
def stringTest (test : List Char → List Char → Bool) (value part : Value) : Bool :=
  match value, part with
  | .str s, .str t => test (A.toLower s).toList (A.toLower t).toList
  | _, _ => false

def stringContains (value substr : Value) : Bool :=
  stringTest A (fun s t => decide (t <:+: s)) value substr

def stringStartsWith (value start : Value) : Bool :=
  stringTest A (fun s t => decide (t <+: s)) value start

def stringEndsWith (value stop : Value) : Bool :=
  stringTest A (fun s t => decide (t <:+ s)) value stop

def inRange (value min max : Value) : Bool :=
  match toFloat64 value, toFloat64 min, toFloat64 max with
  | some v, some lo, some hi => decide (lo ≤ v) && decide (v ≤ hi)
  | _, _, _ => false

def evaluateCondition (field : String) (cond : Option Condition) (payload : Object) :
    Outcome Empty Bool :=
  match cond with
  | none => .value true
  | some cond =>
    let value := getFieldValue field payload
    match cond.op with
    | .equal => compareEqual A value cond.value
    | .notEqual => do return !(← compareEqual A value cond.value)
    | .greater => .value (decide (0 < compareNumeric value cond.value))
    | .greaterEqual => .value (decide (0 ≤ compareNumeric value cond.value))
    | .less => .value (decide (compareNumeric value cond.value < 0))
    | .lessEqual => .value (decide (compareNumeric value cond.value ≤ 0))
    | .isIn => valueIn A value cond.values
    | .notIn => do return !(← valueIn A value cond.values)
    | .contains => .value (stringContains A value cond.value)
    | .startsWith => .value (stringStartsWith A value cond.value)
    | .endsWith => .value (stringEndsWith A value cond.value)
    | .isNull => .value value.isNull
    | .isNotNull => .value (!value.isNull)
    | .range => .value (inRange value cond.min cond.max)
    | .unknown _ => .value true

mutual

def evaluate (payload : Object) : Filter → Outcome Empty Bool
  | .nil => .value true
  | .node .and _ _ filters => evaluateAnd payload filters
  | .node .or _ _ [] => .value true
  | .node .or _ _ (f :: filters) => evaluateOr payload (f :: filters)
  | .node .not _ _ [] => .value true
  | .node .not _ _ (f :: _) => do return !(← evaluate payload f)
  | .node .field field condition _ => evaluateCondition A field condition payload
  | .node (.unknown _) _ _ _ => .value true

def evaluateAnd (payload : Object) : List Filter → Outcome Empty Bool
  | [] => .value true
  | f :: filters => do
    if ← evaluate payload f then evaluateAnd payload filters else return false

/-- The loop; a list without filters has been dealt with. -/
def evaluateOr (payload : Object) : List Filter → Outcome Empty Bool
  | [] => .value false
  | f :: filters => do
    if ← evaluate payload f then return true else evaluateOr payload filters

end

end Evaluate

/-! ## What a tree says, and where its evaluation panics -/

def clashes : Value → Value → Bool
  | .arr _, .arr _ => true
  | .obj _, .obj _ => true
  | _, _ => false

section Meaning

variable (A : Folding)

/-- Equal values, texts up to case; lists and objects are equal to nothing. -/
def same : Value → Value → Bool
  | .null, .null => true
  | .bool a, .bool b => a == b
  | .num x, .num y => decide (x = y)
  | .str s, .str t => A.equalFold s t
  | _, _ => false

def Condition.meaning (cond : Condition) (value : Value) : Bool :=
  match cond.op with
  | .equal => same A value cond.value
  | .notEqual => !same A value cond.value
  | .greater => decide (0 < compareNumeric value cond.value)
  | .greaterEqual => decide (0 ≤ compareNumeric value cond.value)
  | .less => decide (compareNumeric value cond.value < 0)
  | .lessEqual => decide (compareNumeric value cond.value ≤ 0)
  | .isIn => cond.values.any (same A value)
  | .notIn => !cond.values.any (same A value)
  | .contains => stringContains A value cond.value
  | .startsWith => stringStartsWith A value cond.value
  | .endsWith => stringEndsWith A value cond.value
  | .isNull => value.isNull
  | .isNotNull => !value.isNull
  | .range => inRange value cond.min cond.max
  | .unknown _ => true

/-- The comparisons for equality that meet two lists or two objects. -/
def Condition.clash (cond : Condition) (value : Value) : Bool :=
  match cond.op with
  | .equal | .notEqual => clashes value cond.value
  | .isIn | .notIn => cond.values.any (clashes value)
  | _ => false

mutual

def Filter.meaning (payload : Object) : Filter → Bool
  | .nil => true
  | .node .and _ _ filters => allMean payload filters
  | .node .or _ _ filters => filters.isEmpty || anyMeans payload filters
  | .node .not _ _ [] => true
  | .node .not _ _ (f :: _) => !f.meaning payload
  | .node .field field condition _ =>
    condition.all fun cond => cond.meaning A (getFieldValue field payload)
  | .node (.unknown _) _ _ _ => true

def allMean (payload : Object) : List Filter → Bool
  | [] => true
  | f :: filters => f.meaning payload && allMean payload filters

def anyMeans (payload : Object) : List Filter → Bool
  | [] => false
  | f :: filters => f.meaning payload || anyMeans payload filters

end

mutual

/-- **The evaluation gets to two lists or two objects**: from left to right, up to the first filter
    that decides. -/
def Filter.clash (payload : Object) : Filter → Bool
  | .nil => false
  | .node .and _ _ filters => clashAnd payload filters
  | .node .or _ _ filters => clashOr payload filters
  | .node .not _ _ [] => false
  | .node .not _ _ (f :: _) => f.clash payload
  | .node .field field condition _ =>
    condition.any fun cond => cond.clash (getFieldValue field payload)
  | .node (.unknown _) _ _ _ => false

def clashAnd (payload : Object) : List Filter → Bool
  | [] => false
  | f :: filters => f.clash payload || f.meaning A payload && clashAnd payload filters

def clashOr (payload : Object) : List Filter → Bool
  | [] => false
  | f :: filters => f.clash payload || !f.meaning A payload && clashOr payload filters

end

/-- Panic at a clash, and the meaning otherwise. -/
def decides (clash meaning : Bool) : Outcome Empty Bool :=
  if clash then .panic else .value meaning

variable {A}

theorem compareEqual_eq (a b : Value) :
    compareEqual A a b = decides (clashes a b) (same A a b) := by
  cases a <;> cases b <;> rfl

theorem clashes_of_same {a b : Value} (hsame : same A a b = true) (v : Value) :
    clashes a v = false := by
  cases a with
  | arr items => cases b <;> cases hsame
  | obj entries => cases b <;> cases hsame
  | null => rfl
  | bool x => rfl
  | num x => rfl
  | str s => rfl

theorem valueIn_eq (value : Value) (values : List Value) : valueIn A value values =
      decides (values.any (clashes value)) (values.any (same A value)) := by
  induction values with
  | nil => rfl
  | cons v values ih =>
    unfold valueIn
    rw [compareEqual_eq, List.any_cons, List.any_cons, ih]
    cases hsame : same A value v with
    | true =>
      -- the loop stops here, and nothing behind it could clash
      have hnone : values.any (clashes value) = false :=
        List.any_eq_false.mpr fun w _ => by rw [clashes_of_same hsame]; exact Bool.false_ne_true
      rw [clashes_of_same hsame, hnone]
      rfl
    | false =>
      cases clashes value v with
      | true => rfl
      | false => rfl

theorem evaluateCondition_eq (field : String) (cond : Option Condition) (payload : Object) :
    evaluateCondition A field cond payload =
      decides (cond.any fun c => c.clash (getFieldValue field payload))
        (cond.all fun c => c.meaning A (getFieldValue field payload)) := by
  cases cond with
  | none => rfl
  | some cond =>
    obtain ⟨op, value, values, min, max⟩ := cond
    cases op with
    | equal => exact compareEqual_eq ..
    | notEqual =>
      simp only [evaluateCondition, compareEqual_eq, any_some, all_some,
        Condition.clash, Condition.meaning]
      cases clashes (getFieldValue field payload) value <;> rfl
    | isIn => exact valueIn_eq ..
    | notIn =>
      simp only [evaluateCondition, valueIn_eq, any_some, all_some,
        Condition.clash, Condition.meaning]
      cases values.any (clashes (getFieldValue field payload)) <;> rfl
    | _ => rfl

mutual

/-- **The evaluator panics exactly at a clash, and gives the meaning otherwise.** -/
theorem evaluate_eq (payload : Object) (f : Filter) :
    evaluate A payload f = decides (f.clash A payload) (f.meaning A payload) := by
  match f with
  | .nil => rfl
  | .node .and _ _ filters => exact evaluateAnd_eq payload filters
  | .node .or _ _ [] => rfl
  | .node .or _ _ (f :: filters) => exact evaluateOr_eq payload (f :: filters)
  | .node .not _ _ [] => rfl
  | .node .not _ _ (f :: _) =>
    simp only [evaluate, evaluate_eq payload f, Filter.clash, Filter.meaning]
    cases f.clash A payload <;> rfl
  | .node .field field condition _ => exact evaluateCondition_eq field condition payload
  | .node (.unknown _) _ _ _ => rfl

theorem evaluateAnd_eq (payload : Object) (filters : List Filter) : evaluateAnd A payload filters =
      decides (clashAnd A payload filters) (allMean A payload filters) := by
  match filters with
  | [] => rfl
  | f :: filters =>
    simp only [evaluateAnd, evaluate_eq payload f, evaluateAnd_eq payload filters, clashAnd, allMean]
    cases f.clash A payload <;> cases f.meaning A payload <;> rfl

theorem evaluateOr_eq (payload : Object) (filters : List Filter) : evaluateOr A payload filters =
      decides (clashOr A payload filters) (anyMeans A payload filters) := by
  match filters with
  | [] => rfl
  | f :: filters =>
    simp only [evaluateOr, evaluate_eq payload f, evaluateOr_eq payload filters, clashOr, anyMeans]
    cases f.clash A payload <;> cases f.meaning A payload <;> rfl

end

/-- **Evaluate returns for every filter and every payload, except where it gets to a comparison of
    two lists or two objects.** -/
theorem evaluate_returns_iff (A : Folding) (payload : Object) (f : Filter) :
    (∃ b, evaluate A payload f = .value b) ↔ f.clash A payload = false := by
  rw [evaluate_eq]
  cases f.clash A payload with
  | true =>
    refine iff_of_false ?_ (by decide)
    rintro ⟨b, hb⟩
    cases hb
  | false => exact iff_of_true ⟨_, rfl⟩ rfl

end Meaning

/-- A field with a list, and a filter for that list. -/
theorem evaluate_panics : evaluate asciiFolding [("tags", .arr [.str "a"])]
    (.ofField "tags" (.eq (.arr [.str "a"]))) = .panic := by decide

/-! ## The comparisons of numbers -/

section Order

variable (A : Folding) (payload : Object) (field : String)

def Holds (cond : Condition) : Prop := evaluateCondition A field (some cond) payload = .value true

def Numeric : Prop := ∃ x, getFieldValue field payload = .num x

structure OrderLaws (a b : ℚ) : Prop where
  range : Holds A payload field (.range (.num a) (.num b)) ↔
    Holds A payload field (.gte (.num a)) ∧ Holds A payload field (.lte (.num b))
  one : Numeric payload field →
    (Holds A payload field (.lt (.num a)) ∧ ¬ Holds A payload field (.gt (.num a)) ∧
      ¬ Holds A payload field (.eq (.num a))) ∨
    (¬ Holds A payload field (.lt (.num a)) ∧ Holds A payload field (.gt (.num a)) ∧
      ¬ Holds A payload field (.eq (.num a))) ∨
    (¬ Holds A payload field (.lt (.num a)) ∧ ¬ Holds A payload field (.gt (.num a)) ∧
      Holds A payload field (.eq (.num a)))
  none : ¬ Numeric payload field →
    ¬ Holds A payload field (.lt (.num a)) ∧ ¬ Holds A payload field (.lte (.num a)) ∧
    ¬ Holds A payload field (.gt (.num a)) ∧ ¬ Holds A payload field (.gte (.num a)) ∧
    ¬ Holds A payload field (.range (.num a) (.num b))

variable {A payload field}

theorem holds_iff {cond : Condition} (hclash : cond.clash (getFieldValue field payload) = false) :
    Holds A payload field cond ↔ cond.meaning A (getFieldValue field payload) = true := by
  unfold Holds
  rw [evaluateCondition_eq, any_some, hclash, all_some]
  exact ⟨fun h => by injection h, fun h => by rw [h]; rfl⟩

theorem compareNumeric_num (x y : ℚ) : (0 < compareNumeric (.num x) (.num y) ↔ y < x) ∧
    (compareNumeric (.num x) (.num y) < 0 ↔ x < y) := by
  unfold compareNumeric
  simp only [toFloat64]
  rcases lt_trichotomy x y with hlt | rfl | hgt
  · simp [hlt, hlt.le]
  · simp
  · simp [hgt, hgt.not_gt]

theorem clash_eq_num (value : Value) (a : ℚ) : (Condition.eq (.num a)).clash value = false := by
  cases value <;> rfl

theorem orderLaws_of_numeric {x : ℚ} (hx : getFieldValue field payload = .num x) (a b : ℚ) :
    OrderLaws A payload field a b := by
  have hgt : Holds A payload field (.gt (.num a)) ↔ a < x := by
    rw [holds_iff rfl, hx]
    exact decide_eq_true_iff.trans (compareNumeric_num x a).1
  have hlt : Holds A payload field (.lt (.num a)) ↔ x < a := by
    rw [holds_iff rfl, hx]
    exact decide_eq_true_iff.trans (compareNumeric_num x a).2
  have hgte : Holds A payload field (.gte (.num a)) ↔ a ≤ x := by
    rw [holds_iff rfl, hx, ← not_lt, ← (compareNumeric_num x a).2]
    exact decide_eq_true_iff.trans not_lt.symm
  have hlte : Holds A payload field (.lte (.num b)) ↔ x ≤ b := by
    rw [holds_iff rfl, hx, ← not_lt, ← (compareNumeric_num x b).1]
    exact decide_eq_true_iff.trans not_lt.symm
  have heq : Holds A payload field (.eq (.num a)) ↔ x = a := by
    rw [holds_iff (clash_eq_num _ a), hx]
    exact decide_eq_true_iff
  refine ⟨?_, fun _ => ?_, fun hnot => absurd ⟨x, hx⟩ hnot⟩
  · rw [holds_iff rfl, hx, hgte, hlte]
    simp [Condition.meaning, Condition.range, inRange, toFloat64]
  · rw [hlt, hgt, heq]
    rcases lt_trichotomy x a with h | h | h
    · exact .inl ⟨h, h.not_gt, h.ne⟩
    · exact .inr (.inr ⟨h.not_lt, h.not_gt, h⟩)
    · exact .inr (.inl ⟨h.not_gt, h, h.ne'⟩)

/-- **The laws hold exactly where the field is a number.** On anything else `compareNumeric` says equal. -/
theorem order_laws_iff (A : Folding) (payload : Object) (field : String) (a b : ℚ) :
    OrderLaws A payload field a b ↔ Numeric payload field := by
  constructor
  · intro hlaws
    by_contra hnot
    refine (hlaws.none hnot).2.2.2.1 ((holds_iff rfl).mpr ?_)
    have hzero : compareNumeric (getFieldValue field payload) (.num a) = 0 := by
      cases hv : getFieldValue field payload with
      | num x => exact absurd ⟨x, hv⟩ hnot
      | _ => rfl
    show decide (0 ≤ compareNumeric (getFieldValue field payload) (.num a)) = true
    rw [hzero]
    rfl
  · rintro ⟨x, hx⟩
    exact orderLaws_of_numeric hx a b

end Order

/-- A payload without the field: Gte and Lte hold, and Range does not. -/
theorem order_laws_fail : Holds asciiFolding [] "age" (.gte (.num 18)) ∧
    Holds asciiFolding [] "age" (.lte (.num 65)) ∧
    ¬ Holds asciiFolding [] "age" (.range (.num 18) (.num 65)) ∧
    ¬ OrderLaws asciiFolding [] "age" 18 65 := by
  have hgte : Holds asciiFolding [] "age" (.gte (.num 18)) := rfl
  have hlte : Holds asciiFolding [] "age" (.lte (.num 65)) := rfl
  have hrange : ¬ Holds asciiFolding [] "age" (.range (.num 18) (.num 65)) := by
    unfold Holds
    decide
  exact ⟨hgte, hlte, hrange, fun hlaws => hrange (hlaws.range.mpr ⟨hgte, hlte⟩)⟩

end LimyeDB.Payload
