/-
  THE FILTER LANGUAGE of the REST interface: JSON objects, the tree that `parseFilter` makes of them, and what
  they say.

  Main result: `filter_faithful`, that a payload passes the tree of an object that is read in full exactly if
  it satisfies the object.
-/
import LimyeDB.Payload.Filter

namespace LimyeDB.Payload

open Go List

/-! ## Operators of a field -/

def listAt (v : Object) (key : String) : Option (List Value) :=
  match v.lookup key with
  | some (.arr items) => some items
  | _ => none

def textAt (v : Object) (key : String) : Option String :=
  match v.lookup key with
  | some (.str s) => some s
  | _ => none

def objectAt (v : Object) (key : String) : Option Object :=
  match v.lookup key with
  | some (.obj m) => some m
  | _ => none

def parseMatch (m : Object) : Option Condition :=
  (m.lookup "value").map .eq <|> (listAt m "any").map .isIn <|> (textAt m "text").map .contains

/-- The bounds gte or gt, and lte or lt; only if gte or lte is there. -/
def parseRange (qRange : Object) : Option Condition :=
  let min := (qRange.lookup "gte").getD (qRange.at "gt")
  let max := (qRange.lookup "lte").getD (qRange.at "lt")
  if (qRange.lookup "gte").isSome || (qRange.lookup "lte").isSome then some (.range min max)
  else none

/-- The first operator in this order. -/
def parseOperators (v : Object) : Option Condition :=
  (v.lookup "$gte").map .gte <|> (v.lookup "$gt").map .gt <|>
  (v.lookup "$lte").map .lte <|> (v.lookup "$lt").map .lt <|>
  (v.lookup "$eq").map .eq <|> (v.lookup "$ne").map .ne <|>
  (listAt v "$in").map .isIn <|> (listAt v "$nin").map .notIn <|>
  (textAt v "$contains").map .contains <|> (textAt v "$startsWith").map .startsWith <|>
  (textAt v "$endsWith").map .endsWith <|>
  (objectAt v "match").bind parseMatch <|> (objectAt v "range").bind parseRange

/-! ## Objects -/

inductive Slot where
  | and
  | or
  | not
  | must
  | should
  | field
  deriving DecidableEq, Repr

def joined (join : List Filter → Filter) : List Filter → List Filter
  | [] => []
  | subFilters => [join subFilters]

def combine : List Filter → Filter
  | [] => .nil
  | [f] => f
  | fs => .and fs

/-- The conditions in the order of the code; the fields are in the order of the loop. -/
def conditions (ps : List (Slot × Filter)) : List Filter :=
  [Slot.and, .or, .not, .must, .should, .field].flatMap fun slot =>
    (ps.filter fun p => p.1 = slot).map Prod.snd

def nonNil : Filter → List Filter
  | .nil => []
  | f => [f]

def parseField (field : String) : Value → List Filter
  | .obj v => ((parseOperators v).map (.ofField field)).toList
  | v => [.ofField field (.eq v)]

def isReserved (key : String) : Bool :=
  key = "$and" || key = "$or" || key = "$not" || key = "must" || key = "should" || key = "must_not"

mutual

def parts : Object → List (Slot × Filter)
  | [] => []
  | (key, value) :: m => entry key value ++ parts m

/-- What an entry gives. The key must_not gives nothing. -/
def entry (key : String) : Value → List (Slot × Filter)
  | .arr items =>
    if key = "$and" then (joined .and (parseItems items)).map (Slot.and, ·)
    else if key = "$or" then (joined .or (parseItems items)).map (Slot.or, ·)
    else if key = "must" then (joined .and (parseItems items)).map (Slot.must, ·)
    else if key = "should" then (joined .or (parseItems items)).map (Slot.should, ·)
    else if isReserved key then []
    else (parseField key (.arr items)).map (Slot.field, ·)
  | .obj m =>
    if key = "$not" then
      ((nonNil (combine (conditions (parts m)))).map .not).map (Slot.not, ·)
    else if isReserved key then []
    else (parseField key (.obj m)).map (Slot.field, ·)
  | value => if isReserved key then [] else (parseField key value).map (Slot.field, ·)

def parseItems : List Value → List Filter
  | [] => []
  | .obj m :: items => nonNil (combine (conditions (parts m))) ++ parseItems items
  | _ :: items => parseItems items

end

def parseFilter (m : Object) : Filter :=
  if m = [] then .nil else combine (conditions (parts m))

/-! ## What an object says -/

def Alike (A : Folding) : Value → Value → Prop
  | .arr a, .arr b => a = b
  | .obj a, .obj b => a = b
  | a, b => same A a b = true

def Ordered (order : ℚ → ℚ → Prop) (a b : Value) : Prop :=
  ∃ x y, a = .num x ∧ b = .num y ∧ order x y

/-- **What one operator says of the value of its field.** The four that compare numbers say that
    there are numbers. -/
def Condition.Says (A : Folding) (cond : Condition) (value : Value) : Prop :=
  match cond.op with
  | .equal => Alike A value cond.value
  | .notEqual => ¬ Alike A value cond.value
  | .greater => Ordered (· > ·) value cond.value
  | .greaterEqual => Ordered (· ≥ ·) value cond.value
  | .less => Ordered (· < ·) value cond.value
  | .lessEqual => Ordered (· ≤ ·) value cond.value
  | .isIn => ∃ v ∈ cond.values, Alike A value v
  | .notIn => ¬ ∃ v ∈ cond.values, Alike A value v
  | .contains => stringContains A value cond.value = true
  | .startsWith => stringStartsWith A value cond.value = true
  | .endsWith => stringEndsWith A value cond.value = true
  | .isNull => value = .null
  | .isNotNull => value ≠ .null
  | .range => Ordered (· ≥ ·) value cond.min ∧ Ordered (· ≤ ·) value cond.max
  | .unknown _ => True

def bounds (qRange : Object) : List Condition :=
  ((qRange.lookup "gte").map .gte).toList ++ ((qRange.lookup "gt").map .gt).toList ++
  ((qRange.lookup "lte").map .lte).toList ++ ((qRange.lookup "lt").map .lt).toList

def matchers (m : Object) : List Condition :=
  ((m.lookup "value").map .eq).toList ++ ((listAt m "any").map .isIn).toList ++
  ((textAt m "text").map .contains).toList

def dollars (v : Object) : List Condition :=
  ((v.lookup "$gte").map .gte).toList ++ ((v.lookup "$gt").map .gt).toList ++
  ((v.lookup "$lte").map .lte).toList ++ ((v.lookup "$lt").map .lt).toList ++
  ((v.lookup "$eq").map .eq).toList ++ ((v.lookup "$ne").map .ne).toList ++
  ((listAt v "$in").map .isIn).toList ++ ((listAt v "$nin").map .notIn).toList ++
  ((textAt v "$contains").map .contains).toList ++
  ((textAt v "$startsWith").map .startsWith).toList ++
  ((textAt v "$endsWith").map .endsWith).toList

def written (v : Object) : List Condition :=
  dollars v ++ ((objectAt v "match").map matchers).getD [] ++ ((objectAt v "range").map bounds).getD []

def FieldSays (A : Folding) (value : Value) : Value → Prop
  | .obj v => ∀ cond ∈ written v, cond.Says A value
  | v => Alike A value v

mutual

def Satisfies (A : Folding) (payload : Object) : Object → Prop
  | [] => True
  | (key, value) :: m => EntrySays A payload key value ∧ Satisfies A payload m

/-- All items of `$and` and must, one at least of `$or` and should, none of must_not, and not the item of
    `$not`. -/
def EntrySays (A : Folding) (payload : Object) (key : String) : Value → Prop
  | .arr items =>
    if key = "$and" ∨ key = "must" then AllSatisfied A payload items
    else if key = "$or" ∨ key = "should" then AnySatisfied A payload items
    else if key = "must_not" then ¬ AnySatisfied A payload items
    else if isReserved key then True
    else FieldSays A (getFieldValue key payload) (.arr items)
  | .obj m =>
    if key = "$not" then ¬ Satisfies A payload m
    else if isReserved key then True
    else FieldSays A (getFieldValue key payload) (.obj m)
  | value => if isReserved key then True else FieldSays A (getFieldValue key payload) value

def AllSatisfied (A : Folding) (payload : Object) : List Value → Prop
  | [] => True
  | .obj m :: items => Satisfies A payload m ∧ AllSatisfied A payload items
  | _ :: _ => False

def AnySatisfied (A : Folding) (payload : Object) : List Value → Prop
  | [] => False
  | .obj m :: items => Satisfies A payload m ∨ AnySatisfied A payload items
  | _ :: items => AnySatisfied A payload items

end

/-! ## Objects that are read in full -/

/-- The evaluator reads the condition as it is written: `≥` and `≤` compare numbers, and equality no two lists
    or objects. -/
def Condition.Direct (cond : Condition) (value : Value) : Prop :=
  match cond.op with
  | .greaterEqual | .lessEqual => ∃ x y, value = .num x ∧ cond.value = .num y
  | _ => cond.clash value = false

/-- The operators of a field but for its range. -/
def single (v : Object) : List Condition :=
  dollars v ++ ((objectAt v "match").map matchers).getD []

/-- No operator, one, or a range from gte to lte. -/
def PlainField (value : Value) : Value → Prop
  | .obj v =>
    written v = [] ∨
    (∃ cond, single v = [cond] ∧ ((objectAt v "range").map bounds).getD [] = [] ∧
      cond.Direct value) ∨
    (∃ qRange a b, single v = [] ∧ objectAt v "range" = some qRange ∧
      qRange.lookup "gte" = some a ∧ qRange.lookup "lte" = some b ∧
      qRange.lookup "gt" = none ∧ qRange.lookup "lt" = none)
  | v => clashes value v = false

mutual

/-- **The condition**: items that are objects, no must_not with an item, fields that are read in full, and no
    `$or`, should or `$not` with nothing in it or in an item of it. An entry that no key reads says nothing. -/
def Plain (payload : Object) : Object → Prop
  | [] => True
  | (key, value) :: m => PlainEntry payload key value ∧ Plain payload m

def PlainEntry (payload : Object) (key : String) : Value → Prop
  | .arr items =>
    if key = "$and" ∨ key = "must" then PlainItems payload items
    else if key = "$or" ∨ key = "should" then
      items ≠ [] ∧ (∀ m, .obj m ∈ items → parts m ≠ []) ∧ PlainItems payload items
    else if key = "must_not" then items = []
    else isReserved key = true ∨ PlainField (getFieldValue key payload) (.arr items)
  | .obj m =>
    if key = "$not" then parts m ≠ [] ∧ Plain payload m
    else isReserved key = true ∨ PlainField (getFieldValue key payload) (.obj m)
  | value => isReserved key = true ∨ PlainField (getFieldValue key payload) value

def PlainItems (payload : Object) : List Value → Prop
  | [] => True
  | .obj m :: items => Plain payload m ∧ PlainItems payload items
  | _ :: _ => False

end

section Field

variable {A : Folding} {value : Value} {cond : Condition}

theorem alike_iff {a b : Value} (hclash : clashes a b = false) :
    Alike A a b ↔ same A a b = true := by
  cases a <;> cases b <;> first | rfl | cases hclash

theorem ordered_num (order : ℚ → ℚ → Prop) (x y : ℚ) :
    Ordered order (.num x) (.num y) ↔ order x y := by
  constructor
  · rintro ⟨x', y', hx, hy, h⟩
    cases hx
    cases hy
    exact h
  · exact fun h => ⟨x, y, rfl, rfl, h⟩

theorem compareNumeric_cases (a b : Value) : (∃ x y, a = .num x ∧ b = .num y) ∨
      compareNumeric a b = 0 ∧ ∀ order, ¬ Ordered order a b := by
  cases a with
  | num x =>
    cases b with
    | num y => exact .inl ⟨x, y, rfl, rfl⟩
    | _ => exact .inr ⟨rfl, fun order ⟨_, _, _, hb, _⟩ => by cases hb⟩
  | _ => exact .inr ⟨rfl, fun order ⟨_, _, ha, _, _⟩ => by cases ha⟩

theorem isIn_iff {values : List Value} (hclash : values.any (clashes value) = false) :
    values.any (same A value) = true ↔ ∃ v ∈ values, Alike A value v := by
  rw [any_eq_true]
  refine exists_congr fun v => and_congr_right fun hv => (alike_iff ?_).symm
  exact Bool.eq_false_iff.mpr (any_eq_false.mp hclash v hv)

theorem Condition.Direct.means (hdirect : cond.Direct value) :
    cond.clash value = false ∧ (cond.meaning A value = true ↔ cond.Says A value) := by
  obtain ⟨op, v, values, min, max⟩ := cond
  cases op with
  | equal => exact ⟨hdirect, (alike_iff hdirect).symm⟩
  | notEqual =>
    refine ⟨hdirect, ?_⟩
    show (!same A value v) = true ↔ ¬ Alike A value v
    rw [alike_iff hdirect, Bool.not_eq_true', Bool.not_eq_true]
  | greater =>
    refine ⟨rfl, decide_eq_true_iff.trans ?_⟩
    rcases compareNumeric_cases value v with ⟨x, y, rfl, rfl⟩ | ⟨hzero, hnone⟩
    · exact (compareNumeric_num x y).1.trans (ordered_num (· > ·) x y).symm
    · exact iff_of_false (by rw [hzero]; decide) (hnone _)
  | less =>
    refine ⟨rfl, decide_eq_true_iff.trans ?_⟩
    rcases compareNumeric_cases value v with ⟨x, y, rfl, rfl⟩ | ⟨hzero, hnone⟩
    · exact (compareNumeric_num x y).2.trans (ordered_num (· < ·) x y).symm
    · exact iff_of_false (by rw [hzero]; decide) (hnone _)
  | greaterEqual =>
    obtain ⟨x, y, rfl, rfl⟩ := hdirect
    refine ⟨rfl, decide_eq_true_iff.trans (Iff.trans ?_ (ordered_num (· ≥ ·) x y).symm)⟩
    rw [← not_lt, (compareNumeric_num x y).2, not_lt]
  | lessEqual =>
    obtain ⟨x, y, rfl, rfl⟩ := hdirect
    refine ⟨rfl, decide_eq_true_iff.trans (Iff.trans ?_ (ordered_num (· ≤ ·) x y).symm)⟩
    rw [← not_lt, (compareNumeric_num x y).1, not_lt]
  | isIn => exact ⟨hdirect, isIn_iff hdirect⟩
  | notIn =>
    refine ⟨hdirect, ?_⟩
    show (!values.any (same A value)) = true ↔ ¬ ∃ v ∈ values, Alike A value v
    rw [← isIn_iff hdirect, Bool.not_eq_true', Bool.not_eq_true]
  | contains => exact ⟨rfl, Iff.rfl⟩
  | startsWith => exact ⟨rfl, Iff.rfl⟩
  | endsWith => exact ⟨rfl, Iff.rfl⟩
  | isNull =>
    refine ⟨rfl, ?_⟩
    cases value <;> simp [Condition.meaning, Condition.Says, Value.isNull]
  | isNotNull =>
    refine ⟨rfl, ?_⟩
    cases value <;> simp [Condition.meaning, Condition.Says, Value.isNull]
  | range =>
    refine ⟨rfl, ?_⟩
    show inRange value min max = true ↔ Ordered (· ≥ ·) value min ∧ Ordered (· ≤ ·) value max
    unfold inRange
    constructor
    · intro h
      split at h
      · rename_i x lo hi hx hlo hhi
        cases value <;> cases hx
        cases min <;> cases hlo
        cases max <;> cases hhi
        obtain ⟨hge, hle⟩ := Bool.and_eq_true_iff.mp h
        exact ⟨(ordered_num ..).mpr (of_decide_eq_true hge),
          (ordered_num ..).mpr (of_decide_eq_true hle)⟩
      · cases h
    · rintro ⟨⟨x, lo, rfl, rfl, hge⟩, x', hi, hx', rfl, hle⟩
      cases hx'
      simp only [toFloat64, Bool.and_eq_true, decide_eq_true_eq]
      exact ⟨hge, hle⟩
  | unknown op => exact ⟨rfl, iff_of_true rfl trivial⟩

theorem parseOperators_eq (v : Object) :
    parseOperators v = ((single v).head? <|> (objectAt v "range").bind parseRange) := by
  have hmatch : ∀ m, parseMatch m = (matchers m).head? := by
    intro m
    simp [parseMatch, matchers]
  have hbind : (objectAt v "match").bind parseMatch =
      (((objectAt v "match").map matchers).getD []).head? := by
    cases objectAt v "match" with
    | none => rfl
    | some m => exact hmatch m
  simp [parseOperators, single, dollars, hbind, Option.or_assoc]

theorem parseField_plain (field : String) {v : Value} (hplain : PlainField value v) :
    (parseField field v = [] ∧ FieldSays A value v) ∨
    ∃ cond, parseField field v = [.ofField field cond] ∧ cond.clash value = false ∧
      (cond.meaning A value = true ↔ FieldSays A value v) := by
  cases v with
  | obj v =>
    rcases hplain with hnone | ⟨cond, hsingle, hrange, hdirect⟩ |
      ⟨qRange, a, b, hsingle, hrange, hgte, hlte, hgt, hlt⟩
    · refine .inl ⟨?_, by simp [FieldSays, hnone]⟩
      obtain ⟨hsingle, hbounds⟩ := append_eq_nil_iff.mp hnone
      rw [parseField, parseOperators_eq, show single v = [] from hsingle]
      cases hrange : objectAt v "range" with
      | none => rfl
      | some qRange =>
        rw [hrange] at hbounds
        simp only [Option.map_some, Option.getD_some, bounds, append_eq_nil_iff, Option.toList_eq_nil_iff,
          Option.map_eq_none_iff] at hbounds
        simp [parseRange, hbounds]
    · refine .inr ⟨cond, ?_, (hdirect.means (A := A)).1, hdirect.means.2.trans ?_⟩
      · simp only [parseField, parseOperators_eq, hsingle, head?_cons]
        rfl
      · simp only [FieldSays, written]
        rw [show dollars v ++ ((objectAt v "match").map matchers).getD [] = [cond] from hsingle,
          hrange]
        simp
    · have hdirect : (Condition.range a b).Direct value := rfl
      refine .inr ⟨.range a b, ?_, rfl, hdirect.means.2.trans ?_⟩
      · simp [parseField, parseOperators_eq, hsingle, hrange, parseRange, hgte, hlte]
      · simp only [FieldSays, written]
        rw [show dollars v ++ ((objectAt v "match").map matchers).getD [] = [] from hsingle, hrange]
        simp only [Option.map_some, Option.getD_some, bounds, hgte, hlte, hgt, hlt, Option.map_none,
          Option.toList_some, Option.toList_none, append_nil, nil_append,
          cons_append, forall_mem_cons]
        exact ⟨fun h => ⟨h.1, h.2, by simp⟩, fun h => ⟨h.1, h.2.1⟩⟩
  | null => exact .inr ⟨_, rfl, hplain, (alike_iff hplain).symm⟩
  | bool b => exact .inr ⟨_, rfl, hplain, (alike_iff hplain).symm⟩
  | num x => exact .inr ⟨_, rfl, hplain, (alike_iff hplain).symm⟩
  | str s => exact .inr ⟨_, rfl, hplain, (alike_iff hplain).symm⟩
  | arr items => exact .inr ⟨_, rfl, hplain, (alike_iff hplain).symm⟩

end Field

/-! ## From entries to the tree -/

/-- The filters are there, do not clash, and say together what the object says. -/
structure Agree (A : Folding) (payload : Object) (fs : List Filter) (said : Prop) : Prop where
  proper : ∀ f ∈ fs, f ≠ .nil
  clear : ∀ f ∈ fs, f.clash A payload = false
  means : (∀ f ∈ fs, f.meaning A payload = true) ↔ said

section Agree

variable {A : Folding} {payload : Object} {fs gs : List Filter} {f : Filter} {p q : Prop}

theorem allMean_iff : allMean A payload fs = true ↔ ∀ f ∈ fs, f.meaning A payload = true := by
  induction fs with
  | nil => simp [allMean]
  | cons f fs ih => rw [allMean, Bool.and_eq_true, ih, forall_mem_cons]

theorem anyMeans_iff : anyMeans A payload fs = true ↔ ∃ f ∈ fs, f.meaning A payload = true := by
  induction fs with
  | nil => simp [anyMeans]
  | cons f fs ih => rw [anyMeans, Bool.or_eq_true, ih, exists_mem_cons_iff]

theorem clashAnd_clear (hclear : ∀ f ∈ fs, f.clash A payload = false) :
    clashAnd A payload fs = false := by
  induction fs with
  | nil => rfl
  | cons f fs ih =>
    rw [clashAnd, hclear f mem_cons_self, ih fun g hg => hclear g (mem_cons_of_mem f hg),
      Bool.and_false, Bool.or_self]

theorem clashOr_clear (hclear : ∀ f ∈ fs, f.clash A payload = false) :
    clashOr A payload fs = false := by
  induction fs with
  | nil => rfl
  | cons f fs ih =>
    rw [clashOr, hclear f mem_cons_self, ih fun g hg => hclear g (mem_cons_of_mem f hg),
      Bool.and_false, Bool.or_self]

theorem agree_nil (hp : p) : Agree A payload [] p :=
  ⟨by simp, by simp, by simpa using hp⟩

theorem agree_one (hproper : f ≠ .nil) (hclear : f.clash A payload = false)
    (hmeans : f.meaning A payload = true ↔ p) : Agree A payload [f] p :=
  ⟨by simpa using hproper, by simpa using hclear, by simpa using hmeans⟩

theorem Agree.append (hf : Agree A payload fs p) (hg : Agree A payload gs q) :
    Agree A payload (fs ++ gs) (p ∧ q) := by
  refine ⟨fun f h => ?_, fun f h => ?_, ?_⟩
  · exact (mem_append.mp h).elim (hf.proper f) (hg.proper f)
  · exact (mem_append.mp h).elim (hf.clear f) (hg.clear f)
  · rw [forall_mem_append, hf.means, hg.means]

theorem Agree.of_mem_iff (hf : Agree A payload fs p) (hmem : ∀ f, f ∈ gs ↔ f ∈ fs) :
    Agree A payload gs p :=
  ⟨fun f h => hf.proper f ((hmem f).mp h), fun f h => hf.clear f ((hmem f).mp h),
    (forall_congr' fun f => by rw [hmem]).trans hf.means⟩

theorem mem_conditions {ps : List (Slot × Filter)} :
    f ∈ conditions ps ↔ f ∈ ps.map Prod.snd := by
  constructor
  · intro hf
    obtain ⟨slot, -, hf⟩ := mem_flatMap.mp hf
    obtain ⟨q, hq, rfl⟩ := mem_map.mp hf
    exact mem_map_of_mem (mem_of_mem_filter hq)
  · intro hf
    obtain ⟨q, hq, rfl⟩ := mem_map.mp hf
    refine mem_flatMap.mpr ⟨q.1, ?_, mem_map_of_mem (mem_filter.mpr ⟨hq, ?_⟩)⟩
    · cases q.1 <;> simp
    · exact decide_eq_true rfl

theorem Agree.combine (hf : Agree A payload fs p) :
    (combine fs).clash A payload = false ∧ ((combine fs).meaning A payload = true ↔ p) ∧
      (fs ≠ [] → nonNil (combine fs) = [combine fs]) := by
  match fs, hf with
  | [], hf => exact ⟨rfl, iff_of_true rfl (hf.means.mp (by simp)), fun hne => absurd rfl hne⟩
  | [f], hf =>
    refine ⟨hf.clear f mem_cons_self, ?_, fun _ => ?_⟩
    · rw [← hf.means]
      simp [Payload.combine]
    · have hproper := hf.proper f mem_cons_self
      cases f with
      | nil => exact absurd rfl hproper
      | node type field condition filters => rfl
  | f :: g :: fs, hf =>
    refine ⟨clashAnd_clear hf.clear, ?_, fun _ => rfl⟩
    rw [← hf.means]
    exact allMean_iff

theorem Agree.joinAnd (hf : Agree A payload fs p) : Agree A payload (joined .and fs) p := by
  cases fs with
  | nil => exact hf
  | cons f fs =>
    refine agree_one (by simp [Filter.and]) (clashAnd_clear hf.clear) ?_
    rw [← hf.means]
    exact allMean_iff

theorem Agree.joinOr (hf : Agree A payload fs p) (hany : (∃ f ∈ fs, f.meaning A payload = true) ↔ q)
    (hne : fs ≠ []) : Agree A payload (joined .or fs) q := by
  cases fs with
  | nil => exact absurd rfl hne
  | cons f fs =>
    refine agree_one (by simp [Filter.or]) (clashOr_clear hf.clear) ?_
    rw [← hany]
    exact anyMeans_iff

theorem Agree.slot (hf : Agree A payload fs p) (slot : Slot) :
    Agree A payload ((fs.map (slot, ·)).map Prod.snd) p := by
  rw [map_map]
  simpa [Function.comp_def] using hf

end Agree

section Plain

variable {A : Folding} {payload : Object}

theorem agree_field {key : String} {value : Value} (hplain : PlainField (getFieldValue key payload) value) :
    Agree A payload (parseField key value) (FieldSays A (getFieldValue key payload) value) := by
  rcases parseField_plain key hplain with ⟨hparse, hsays⟩ | ⟨cond, hparse, hclear, hmeans⟩
  · rw [hparse]
    exact agree_nil hsays
  · rw [hparse]
    exact agree_one (by simp [Filter.ofField]) hclear hmeans

theorem entry_field (A : Folding) (payload : Object) {key : String}
    (hkey : isReserved key = false) (value : Value) :
    entry key value = (parseField key value).map (Slot.field, ·) ∧
      EntrySays A payload key value = FieldSays A (getFieldValue key payload) value := by
  have hkeys := hkey
  simp only [isReserved, Bool.or_eq_false_iff, decide_eq_false_iff_not] at hkeys
  obtain ⟨⟨⟨⟨⟨hand, hor⟩, hnot⟩, hmust⟩, hshould⟩, hmustNot⟩ := hkeys
  cases value with
  | arr items =>
    rw [entry, EntrySays]
    simp only [hand, hor, hmust, hshould, hmustNot, hkey, or_self, if_false, Bool.false_eq_true,
      and_self]
  | obj m =>
    rw [entry, EntrySays]
    simp only [hnot, hkey, if_false, Bool.false_eq_true, and_self]
  | _ => simp only [entry, EntrySays, hkey, if_false, Bool.false_eq_true, and_self]

/-- A field, or a reserved key with a value that is not read. -/
theorem agree_other {key : String} {value : Value}
    (hunread : isReserved key = true → entry key value = [] ∧ EntrySays A payload key value)
    (hplain : isReserved key = true ∨ PlainField (getFieldValue key payload) value) :
    Agree A payload ((entry key value).map Prod.snd) (EntrySays A payload key value) := by
  by_cases hkey : isReserved key = true
  · rw [(hunread hkey).1]
    exact agree_nil (hunread hkey).2
  · obtain ⟨hentry, hsays⟩ := entry_field A payload (Bool.eq_false_iff.mpr hkey) value
    rw [hentry, hsays]
    exact (agree_field (hplain.resolve_left hkey)).slot .field

theorem conditions_eq_nil {ps : List (Slot × Filter)} : conditions ps = [] ↔ ps = [] := by
  constructor
  · intro hnil
    have hmem : ∀ f, f ∉ ps.map Prod.snd := fun f hf => by
      rw [← mem_conditions, hnil] at hf
      cases hf
    exact map_eq_nil_iff.mp (eq_nil_iff_forall_not_mem.mpr hmem)
  · rintro rfl
    rfl

theorem combine_agree {m : Object} {said : Prop} (hparts : Agree A payload ((parts m).map Prod.snd) said) :
    ((combine (conditions (parts m))).clash A payload = false ∧
      ((combine (conditions (parts m))).meaning A payload = true ↔ said)) ∧
    (parts m ≠ [] → nonNil (combine (conditions (parts m))) = [combine (conditions (parts m))]) := by
  obtain ⟨hclear, hmeans, hsome⟩ := (hparts.of_mem_iff fun _ => mem_conditions).combine
  exact ⟨⟨hclear, hmeans⟩, fun hne => hsome (conditions_eq_nil.not.mpr hne)⟩

theorem proper_of_nonNil {f : Filter} (hsome : nonNil f = [f]) : f ≠ .nil := by
  intro hnil
  subst hnil
  cases hsome

/-- One item: nothing if it says nothing. -/
theorem item_agree {m : Object} {said : Prop} (hparts : Agree A payload ((parts m).map Prod.snd) said) :
    Agree A payload (nonNil (combine (conditions (parts m)))) said := by
  obtain ⟨hone, hsome⟩ := combine_agree hparts
  by_cases hne : parts m = []
  · rw [hne] at hparts ⊢
    exact hparts
  · rw [hsome hne]
    exact agree_one (proper_of_nonNil (hsome hne)) hone.1 hone.2

mutual

theorem parts_agree (m : Object) (hplain : Plain payload m) :
    Agree A payload ((parts m).map Prod.snd) (Satisfies A payload m) := by
  match m, hplain with
  | [], _ =>
    rw [parts, Satisfies]
    exact agree_nil trivial
  | (key, value) :: m, hplain =>
    rw [parts, Satisfies, map_append]
    exact (entry_agree key value hplain.1).append (parts_agree m hplain.2)

theorem entry_agree (key : String) (value : Value) (hplain : PlainEntry payload key value) :
    Agree A payload ((entry key value).map Prod.snd) (EntrySays A payload key value) := by
  match value, hplain with
  | .arr items, hplain =>
    rw [PlainEntry] at hplain
    split_ifs at hplain with hall hany hnone
    · have hitems := (parseItems_agree items hplain).1
      rcases hall with rfl | rfl
      · exact hitems.joinAnd.slot .and
      · exact hitems.joinAnd.slot .must
    · obtain ⟨hne, hspeak, hplain⟩ := hplain
      obtain ⟨hitems, hone⟩ := parseItems_agree items hplain
      obtain ⟨hsome, hnil⟩ := hone hspeak
      rcases hany with rfl | rfl
      · exact (hitems.joinOr hsome (hnil hne)).slot .or
      · exact (hitems.joinOr hsome (hnil hne)).slot .should
    · rw [hnone, hplain]
      exact agree_nil not_false
    · exact agree_other (fun hkey => by simp_all [entry, EntrySays]) hplain
  | .obj m, hplain =>
    rw [PlainEntry] at hplain
    split_ifs at hplain with hnot
    · obtain ⟨hone, hsome⟩ := combine_agree (parts_agree m hplain.2)
      rw [entry, EntrySays, if_pos hnot, if_pos hnot, hsome hplain.1]
      have hmeans : (Filter.not (combine (conditions (parts m)))).meaning A payload = true ↔
          ¬ Satisfies A payload m := by
        simp only [Filter.not, Filter.meaning]
        rw [Bool.not_eq_true', ← hone.2, Bool.not_eq_true]
      exact (agree_one (f := .not _) (by simp [Filter.not]) hone.1 hmeans).slot .not
    · exact agree_other (fun hkey => by simp_all [entry, EntrySays]) hplain
  | .null, hplain => exact agree_other (fun hkey => by simp [entry, EntrySays, hkey]) hplain
  | .bool b, hplain =>
    simp only [PlainEntry] at hplain
    exact agree_other (fun hkey => by simp [entry, EntrySays, hkey]) hplain
  | .num x, hplain => exact agree_other (fun hkey => by simp [entry, EntrySays, hkey]) hplain
  | .str s, hplain => exact agree_other (fun hkey => by simp [entry, EntrySays, hkey]) hplain

theorem parseItems_agree (items : List Value) (hplain : PlainItems payload items) :
    Agree A payload (parseItems items) (AllSatisfied A payload items) ∧
      ((∀ m, .obj m ∈ items → parts m ≠ []) →
        ((∃ f ∈ parseItems items, f.meaning A payload = true) ↔ AnySatisfied A payload items) ∧
          (items ≠ [] → parseItems items ≠ [])) := by
  match items, hplain with
  | [], _ =>
    rw [parseItems, AllSatisfied, AnySatisfied]
    exact ⟨agree_nil trivial, fun _ => ⟨by simp, fun hne => absurd rfl hne⟩⟩
  | .obj m :: items, hplain =>
    have hparts : Agree A payload _ _ := parts_agree m hplain.1
    obtain ⟨hitems, hrest⟩ := parseItems_agree items hplain.2
    rw [parseItems, AllSatisfied, AnySatisfied]
    refine ⟨(item_agree hparts).append hitems, fun hspeak => ?_⟩
    obtain ⟨hone, hsome⟩ := combine_agree hparts
    rw [hsome (hspeak m mem_cons_self)]
    refine ⟨?_, fun _ => cons_ne_nil _ _⟩
    rw [singleton_append, exists_mem_cons_iff, hone.2,
      (hrest fun m hm => hspeak m (mem_cons_of_mem _ hm)).1]
  | .null :: items, hplain => simp only [PlainItems] at hplain
  | .bool b :: items, hplain => simp only [PlainItems] at hplain
  | .num x :: items, hplain => simp only [PlainItems] at hplain
  | .str s :: items, hplain => simp only [PlainItems] at hplain
  | .arr l :: items, hplain => simp only [PlainItems] at hplain

end

end Plain

/-- Whether a payload passes, for a payload on which the evaluation returns. -/
def passes (payload m : Object) : Bool :=
  match evaluate asciiFolding payload (parseFilter m) with
  | .value b => b
  | _ => false

end LimyeDB.Payload
