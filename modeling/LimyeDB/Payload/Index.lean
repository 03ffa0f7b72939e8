/-
  THE PAYLOAD INDEX (pkg/index/payload/index.go): a filter as a query to SQLite, which keeps the rows on which
  it is true, not those on which it is unknown.
-/
import LimyeDB.Lib.Kleene
import LimyeDB.Lib.Like
import LimyeDB.Payload.Filter

namespace LimyeDB.Payload

open Go Lib List

/-! ## The query -/

inductive SqlOp where
  | eq
  | ne
  | gt
  | ge
  | lt
  | le
  deriving DecidableEq, Repr

inductive Clause where
  | and (clauses : List Clause)
  | or (clauses : List Clause)
  | not (clause : Clause)
  | compare (op : SqlOp) (field : String) (arg : Value)
  | isIn (field : String) (args : List Value)
  | notIn (field : String) (args : List Value)
  | like (field : String) (pattern : String)
  | isNull (field : String)
  | isNotNull (field : String)
  | range (field : String) (min max : Value)
  | const (b : Bool)

/-- `fmt.Sprint`, of which only the texts are known, and numbers as SQLite turns them into texts. -/
structure Texts where
  sprint : Value → String
  sprint_str : ∀ s, sprint (.str s) = s
  numText : ℚ → String

section Build

variable (T : Texts)

def escapeLikePattern (s : String) : List Char := Like.escape s.toList

def buildCondition (field : String) (c : Condition) : Option Clause :=
  match c.op with
  | .equal => some (.compare .eq field c.value)
  | .notEqual => some (.compare .ne field c.value)
  | .greater => some (.compare .gt field c.value)
  | .greaterEqual => some (.compare .ge field c.value)
  | .less => some (.compare .lt field c.value)
  | .lessEqual => some (.compare .le field c.value)
  | .isIn => some (if c.values.isEmpty then .const false else .isIn field c.values)
  | .notIn => some (if c.values.isEmpty then .const true else .notIn field c.values)
  | .contains =>
    some (.like field (String.ofList ('%' :: (escapeLikePattern (T.sprint c.value) ++ ['%']))))
  | .startsWith =>
    some (.like field (String.ofList (escapeLikePattern (T.sprint c.value) ++ ['%'])))
  | .endsWith =>
    some (.like field (String.ofList ('%' :: escapeLikePattern (T.sprint c.value))))
  | .isNull => some (.isNull field)
  | .isNotNull => some (.isNotNull field)
  | .range => some (.range field c.min c.max)
  | .unknown _ => none

mutual

/-- `none` is the empty text. -/
def buildWhereClause : Filter → Option Clause
  | .nil => none
  | .node .and _ _ filters =>
    let clauses := buildClauses filters
    if clauses.isEmpty then none else some (.and clauses)
  | .node .or _ _ filters =>
    let clauses := buildClauses filters
    if clauses.isEmpty then none else some (.or clauses)
  | .node .not _ _ [] => none
  | .node .not _ _ (f :: _) => (buildWhereClause f).map .not
  | .node .field field condition _ => condition.bind (buildCondition T field)
  | .node (.unknown _) _ _ _ => none

def buildClauses : List Filter → List Clause
  | [] => []
  | f :: filters => (buildWhereClause f).toList ++ buildClauses filters

end

end Build

/-! ## SQLite -/

inductive SqlValue where
  | null
  | num (x : ℚ)
  | text (s : String)
  deriving DecidableEq

/-- A value as a parameter or out of flat JSON; a list or an object cannot be bound. -/
def toSql : Value → Option SqlValue
  | .null => some .null
  | .bool b => some (.num (if b then 1 else 0))
  | .num x => some (.num x)
  | .str s => some (.text s)
  | .arr _ => none
  | .obj _ => none

/-- The first key of a path behind `$.`, and what follows it. -/
def pathKey : List Char → Option (List Char × List Char)
  | '"' :: cs =>
    match cs.dropWhile fun c => c ≠ '"' with
    | [] => none
    | _ :: rest => some (cs.takeWhile fun c => c ≠ '"', rest)
  | cs =>
    let key := cs.takeWhile fun c => c ≠ '.' && c ≠ '['
    if key.isEmpty then none else some (key, cs.drop key.length)

/-- `json_extract` of a flat object, which has nothing below its keys; `none` is a bad path. -/
def jsonExtract (payload : Object) (field : String) : Option SqlValue :=
  match pathKey field.toList with
  | none => none
  | some (key, []) => some ((toSql (Object.at payload (String.ofList key))).getD .null)
  | some (_, c :: _) => if c = '.' ∨ c = '[' then some .null else none

/-- Numbers are below texts, and texts are in the order of their bytes. -/
def sqlCompare : SqlValue → SqlValue → Option Ordering
  | .null, _ => none
  | _, .null => none
  | .num x, .num y => some (cmp x y)
  | .num _, .text _ => some .lt
  | .text _, .num _ => some .gt
  | .text s, .text t => some (cmp s t)

def SqlOp.test : SqlOp → Ordering → Bool
  | .eq, o => o == .eq
  | .ne, o => o != .eq
  | .gt, o => o == .gt
  | .ge, o => o != .lt
  | .lt, o => o == .lt
  | .le, o => o != .gt

def asciiEq : Char → Char → Bool := fun c d => c.toLower == d.toLower

section Evaluate

variable (T : Texts)

def sqlLike (u : SqlValue) (pattern : String) : Option Bool :=
  match u with
  | .null => none
  | .num x => some (Like.matchTokens asciiEq (Like.parseEscaped pattern.toList) (T.numText x).toList)
  | .text s => some (Like.matchTokens asciiEq (Like.parseEscaped pattern.toList) s.toList)

def sqlTest (op : SqlOp) (u : SqlValue) (arg : Value) : Option Bool :=
  (toSql arg).bind fun w => (sqlCompare u w).map op.test

/-- `json_type(data, path) = 'null'`: unknown where there is nothing, and no value is null. -/
def jsonTypeNull (u : SqlValue) : Option Bool := if u = .null then none else some false

mutual

/-- A clause on a row; `none` is unknown. -/
def evalClause (payload : Object) : Clause → Option Bool
  | .and clauses => Kleene.conj (evalClauses payload clauses)
  | .or clauses => Kleene.disj (evalClauses payload clauses)
  | .not clause => Kleene.neg (evalClause payload clause)
  | .compare op field arg => (jsonExtract payload field).bind fun u => sqlTest op u arg
  | .isIn field args => (jsonExtract payload field).bind fun u =>
      Kleene.disj (args.map fun w => sqlTest .eq u w)
  | .notIn field args => (jsonExtract payload field).bind fun u =>
      Kleene.neg (Kleene.disj (args.map fun w => sqlTest .eq u w))
  | .like field pattern => (jsonExtract payload field).bind fun u => sqlLike T u pattern
  | .isNull field => (jsonExtract payload field).bind fun u =>
      Kleene.disj [some (decide (u = .null)), jsonTypeNull u]
  | .isNotNull field => (jsonExtract payload field).bind fun u =>
      Kleene.conj [some (decide (u ≠ .null)), Kleene.neg (jsonTypeNull u)]
  | .range field min max => (jsonExtract payload field).bind fun u =>
      Kleene.conj [sqlTest .ge u min, sqlTest .le u max]
  | .const b => some b

def evalClauses (payload : Object) : List Clause → List (Option Bool)
  | [] => []
  | c :: cs => evalClause payload c :: evalClauses payload cs

end

def fieldRuns (field : String) : Bool :=
  match pathKey field.toList with
  | none => false
  | some (_, []) => true
  | some (_, c :: _) => c = '.' || c = '['

mutual

/-- The query runs: its parameters can be bound, and its paths are paths. -/
def Clause.runs : Clause → Bool
  | .and clauses => clausesRun clauses
  | .or clauses => clausesRun clauses
  | .not clause => clause.runs
  | .compare _ field arg => fieldRuns field && (toSql arg).isSome
  | .isIn field args => fieldRuns field && args.all fun w => (toSql w).isSome
  | .notIn field args => fieldRuns field && args.all fun w => (toSql w).isSome
  | .like field _ => fieldRuns field
  | .isNull field => fieldRuns field
  | .isNotNull field => fieldRuns field
  | .range field min max => fieldRuns field && (toSql min).isSome && (toSql max).isSome
  | .const _ => true

def clausesRun : List Clause → Bool
  | [] => true
  | c :: cs => c.runs && clausesRun cs

end

end Evaluate

/-! ## The index -/

/-- The table, by the ids of the points. -/
abbrev Index := AList fun _ : ℕ => Object

def Index.indexPoint (idx : Index) (pointID : ℕ) (payload : Object) : Index :=
  if payload.isEmpty then idx else idx.insert pointID payload

/-- The ids of the rows on which the clause is true; none without a clause or after an error. -/
def Index.filter (T : Texts) (idx : Index) (f : Filter) : List ℕ :=
  match buildWhereClause T f with
  | none => []
  | some c =>
    if c.runs then (idx.entries.filter fun e => evalClause T e.2 c == some true).map Sigma.fst
    else []

inductive ValidateError where
  | noSubFilter
  | notOneSubFilter
  | noFieldName
  | noCondition
  | unknownType
  deriving DecidableEq, Repr

mutual

def validate : Filter → Except ValidateError Unit
  | .nil => .ok ()
  | .node .and _ _ filters => if filters.isEmpty then .error .noSubFilter else validateAll filters
  | .node .or _ _ filters => if filters.isEmpty then .error .noSubFilter else validateAll filters
  | .node .not _ _ [f] => validate f
  | .node .not _ _ _ => .error .notOneSubFilter
  | .node .field field condition _ =>
    if field = "" then .error .noFieldName
    else if condition.isNone then .error .noCondition
    else .ok ()
  | .node (.unknown _) _ _ _ => .error .unknownType

def validateAll : List Filter → Except ValidateError Unit
  | [] => .ok ()
  | f :: filters =>
    match validate f with
    | .error e => .error e
    | .ok () => validateAll filters

end

/-! ## One condition -/

def Scalar : Value → Prop
  | .arr _ => False
  | .obj _ => False
  | _ => True

def Flat (payload : Object) : Prop := ∀ e ∈ payload, Scalar e.2 ∧ e.2.isNull = false

/-- The name of a field that is one key for the evaluator and for SQLite. -/
def OneKey (field : String) : Prop :=
  field ≠ "" ∧ ∀ c ∈ field.toList, c ≠ '.' ∧ c ≠ '[' ∧ c ≠ '"'

def sqlOf (v : Value) : SqlValue := (toSql v).getD .null

def sqlOrder (v w : Value) : Option Ordering := (toSql w).bind (sqlCompare (sqlOf v))

def sqlText (T : Texts) : Value → String
  | .str s => s
  | .num x => T.numText x
  | .bool b => T.numText (if b then 1 else 0)
  | _ => ""

/-- A test of two texts, with the ASCII letters in lower case. -/
def asciiTest (test : List Char → List Char → Bool) (s t : String) : Bool :=
  test (s.toList.map Char.toLower) (t.toList.map Char.toLower)

section Agree

variable (A : Folding) (T : Texts)

/-- Equality: texts that differ in case only are two for SQLite, and a boolean is a number. -/
def EqualAgrees : Value → Value → Prop
  | .bool _, .bool _ => True
  | .num _, .num _ => True
  | .str s, .str t => s = t ↔ A.equalFold s t = true
  | .bool b, .num x => x ≠ if b then 1 else 0
  | .num x, .bool b => x ≠ if b then 1 else 0
  | .bool _, .str _ => True
  | .num _, .str _ => True
  | .str _, .bool _ => True
  | .str _, .num _ => True
  | _, _ => False

/-- Order: for the evaluator, what are not two numbers are equal. -/
def OrderAgrees (op : SqlOp) (v w : Value) : Prop :=
  (∃ x y, v = .num x ∧ w = .num y) ∨ ∃ o, sqlOrder v w = some o ∧ op.test o = op.test .eq

/-- A list of values: SQLite finds one exactly if the evaluator does, and no null makes it unknown
    whether there is one. -/
def InAgrees (v : Value) (values : List Value) : Prop :=
  values = [] ∨ (v.isNull = false ∧ (∀ w ∈ values, (toSql w).isSome) ∧
    ((∃ w ∈ values, sqlOrder v w = some .eq) ↔ ∃ w ∈ values, same A v w = true) ∧
      ((∃ w ∈ values, sqlOrder v w = some .eq) ∨ ∀ w ∈ values, w.isNull = false))

/-- Texts: both know the same cases; anything else has a text for SQLite only. -/
def LikeAgrees (test : List Char → List Char → Bool) (v w : Value) : Prop :=
  v.isNull = false ∧ asciiTest test (sqlText T v) (T.sprint w) = stringTest A test v w

/-- Ranges: three numbers, or SQLite finds the value outside. -/
def RangeAgrees (v min max : Value) : Prop :=
  ((toSql min).isSome ∧ (toSql max).isSome) ∧
    ((∃ x a b, v = .num x ∧ min = .num a ∧ max = .num b) ∨
      sqlOrder v min = some .lt ∨ sqlOrder v max = some .gt)

/-- **What a condition and the value of its field must be** for the two implementations to agree
    under every connective. -/
def Condition.Agrees (cond : Condition) (v : Value) : Prop :=
  match cond.op with
  | .equal | .notEqual => EqualAgrees A v cond.value
  | .greater => OrderAgrees .gt v cond.value
  | .greaterEqual => OrderAgrees .ge v cond.value
  | .less => OrderAgrees .lt v cond.value
  | .lessEqual => OrderAgrees .le v cond.value
  | .isIn | .notIn => InAgrees A v cond.values
  | .contains => LikeAgrees A T (fun s t => decide (t <:+: s)) v cond.value
  | .startsWith => LikeAgrees A T (fun s t => decide (t <+: s)) v cond.value
  | .endsWith => LikeAgrees A T (fun s t => decide (t <:+ s)) v cond.value
  | .isNull | .isNotNull => True
  | .range => RangeAgrees v cond.min cond.max
  | .unknown _ => False

variable {A T}

theorem sqlTest_eq (op : SqlOp) (v w : Value) :
    sqlTest op (sqlOf v) w = (sqlOrder v w).map op.test := by
  unfold sqlTest sqlOrder
  cases toSql w <;> rfl

theorem cmp_beq {α : Type} [LinearOrder α] (x y : α) : (cmp x y == .eq) = decide (x = y) := by
  rw [Bool.eq_iff_iff, beq_iff_eq, decide_eq_true_iff, cmp_eq_eq_iff]

variable {v w : Value} {field : String}

theorem equalAgrees_iff (hv : Scalar v) (w : Value) :
    sqlTest .eq (sqlOf v) w = some (same A v w) ↔ EqualAgrees A v w := by
  cases v with
  | arr items => cases hv
  | obj entries => cases hv
  | null => cases w <;> simp [sqlTest, toSql, sqlOf, sqlCompare, EqualAgrees]
  | bool a =>
    cases w with
    | bool b =>
      refine iff_of_true ?_ trivial
      cases a <;> cases b <;> rfl
    | _ => simp [sqlTest, toSql, sqlOf, sqlCompare, EqualAgrees, same, SqlOp.test, cmp_beq, eq_comm]
  | num x =>
    cases w <;> simp [sqlTest, toSql, sqlOf, sqlCompare, EqualAgrees, same, SqlOp.test, cmp_beq]
  | str s =>
    cases w with
    | str t =>
      have htest : sqlTest .eq (sqlOf (.str s)) (.str t) = some (decide (s = t)) := by
        simp [sqlTest, toSql, sqlOf, sqlCompare, SqlOp.test, cmp_beq]
      rw [htest, Option.some.injEq, Bool.eq_iff_iff, decide_eq_true_iff]
      rfl
    | _ => simp [sqlTest, toSql, sqlOf, sqlCompare, EqualAgrees, same, SqlOp.test]

theorem neg_eq_some {x : Option Bool} {b : Bool} : Kleene.neg x = some (!b) ↔ x = some b := by
  cases x with
  | none => simp [Kleene.neg]
  | some c => cases b <;> cases c <;> simp

theorem sqlTest_ne (u : SqlValue) (w : Value) : sqlTest .ne u w = Kleene.neg (sqlTest .eq u w) := by
  unfold sqlTest
  cases toSql w with
  | none => rfl
  | some y =>
    simp only [Option.bind_some]
    cases sqlCompare u y <;> rfl

/-- The order in which the evaluator has two values: what are not two numbers are equal. -/
def evalOrder (v w : Value) : Ordering :=
  match toFloat64 v, toFloat64 w with
  | some x, some y => cmp x y
  | _, _ => .eq

theorem compareNumeric_evalOrder (v w : Value) :
    (decide (0 < compareNumeric v w) = SqlOp.test .gt (evalOrder v w)) ∧
    (decide (0 ≤ compareNumeric v w) = SqlOp.test .ge (evalOrder v w)) ∧
    (decide (compareNumeric v w < 0) = SqlOp.test .lt (evalOrder v w)) ∧
    (decide (compareNumeric v w ≤ 0) = SqlOp.test .le (evalOrder v w)) := by
  unfold compareNumeric evalOrder
  cases toFloat64 v with
  | none => simp [SqlOp.test]
  | some x =>
    cases toFloat64 w with
    | none => simp [SqlOp.test]
    | some y =>
      rcases lt_trichotomy x y with hlt | heq | hgt
      · simp [hlt, (cmp_eq_lt_iff x y).mpr hlt, SqlOp.test]
      · simp [heq, SqlOp.test]
      · simp [hgt, hgt.not_gt, (cmp_eq_gt_iff x y).mpr hgt, SqlOp.test]

theorem orderAgrees_iff (op : SqlOp) (v w : Value) :
    sqlTest op (sqlOf v) w = some (op.test (evalOrder v w)) ↔ OrderAgrees op v w := by
  rw [sqlTest_eq]
  by_cases hnum : ∃ x y, v = .num x ∧ w = .num y
  · refine iff_of_true ?_ (.inl hnum)
    obtain ⟨x, y, hv, hw⟩ := hnum
    rw [hv, hw]
    rfl
  · have heq : evalOrder v w = .eq := by
      cases v <;> cases w <;> first | rfl | exact absurd ⟨_, _, rfl, rfl⟩ hnum
    rw [heq, Option.map_eq_some_iff, OrderAgrees, or_iff_right hnum]

theorem sqlOrder_eq_none (hv : Scalar v) (hw : (toSql w).isSome) :
    sqlOrder v w = none ↔ v.isNull = true ∨ w.isNull = true := by
  cases v with
  | arr items => cases hv
  | obj entries => cases hv
  | _ => cases w <;> simp_all [sqlOrder, toSql, sqlOf, sqlCompare, Value.isNull]

theorem inAgrees_iff (hv : Scalar v) {values : List Value} (hne : values ≠ []) :
    ((∀ w ∈ values, (toSql w).isSome) ∧
      Kleene.disj (values.map fun w => sqlTest .eq (sqlOf v) w) = some (values.any (same A v))) ↔
    InAgrees A v values := by
  have hfound : some true ∈ values.map (fun w => sqlTest .eq (sqlOf v) w) ↔
      ∃ w ∈ values, sqlOrder v w = some .eq := by
    simp [sqlTest_eq, SqlOp.test]
  have hunknown : (∀ w ∈ values, (toSql w).isSome) →
      (none ∈ values.map (fun w => sqlTest .eq (sqlOf v) w) ↔
        ∃ w ∈ values, v.isNull = true ∨ w.isNull = true) := by
    intro hbind
    simp only [mem_map, sqlTest_eq, Option.map_eq_none_iff]
    exact exists_congr fun w => and_congr_right fun hw => sqlOrder_eq_none hv (hbind w hw)
  unfold InAgrees
  rw [or_iff_right hne]
  cases hany : values.any (same A v) with
  | true =>
    have hsame : ∃ w ∈ values, same A v w = true := any_eq_true.mp hany
    rw [Kleene.disj_eq_true, hfound]
    constructor
    · intro ⟨hbind, hS⟩
      refine ⟨?_, hbind, iff_of_true hS hsame, .inl hS⟩
      obtain ⟨w, hw, hw'⟩ := hS
      refine Bool.eq_false_of_not_eq_true fun hnull => ?_
      rw [(sqlOrder_eq_none hv (hbind w hw)).mpr (.inl hnull)] at hw'
      cases hw'
    · intro ⟨_, hbind, hiff, _⟩
      exact ⟨hbind, hiff.mpr hsame⟩
  | false =>
    have hsame : ¬ ∃ w ∈ values, same A v w = true := fun h => by
      rw [any_eq_true.mpr h] at hany
      cases hany
    rw [Kleene.disj_eq_false, hfound]
    constructor
    · intro ⟨hbind, hS, hU⟩
      rw [hunknown hbind] at hU
      obtain ⟨w, hw⟩ := exists_mem_of_ne_nil values hne
      refine ⟨Bool.eq_false_of_not_eq_true fun hnull => hU ⟨w, hw, .inl hnull⟩, hbind,
        iff_of_false hS hsame, .inr fun w hw => ?_⟩
      exact Bool.eq_false_of_not_eq_true fun hnull => hU ⟨w, hw, .inr hnull⟩
    · intro ⟨hnull, hbind, hiff, hknown⟩
      have hS := mt hiff.mp hsame
      refine ⟨hbind, hS, ?_⟩
      rw [hunknown hbind]
      intro ⟨w, hw, hor⟩
      rw [hnull, (hknown.resolve_left hS) w hw] at hor
      cases hor <;> contradiction

/-! The three patterns are the three tests, up to the case of ASCII letters. -/

theorem like_contains (s t : String) : Like.matchTokens asciiEq
    (Like.parseEscaped ('%' :: (escapeLikePattern t ++ ['%']))) s.toList =
      asciiTest (fun s t => decide (t <:+: s)) s t := by
  have hparse : Like.parseEscaped ('%' :: (escapeLikePattern t ++ ['%'])) =
      .any :: (t.toList.map .lit ++ [.any]) :=
    congrArg (Like.Token.any :: ·) (Like.parseEscaped_escape t.toList ['%'])
  rw [hparse, Bool.eq_iff_iff, asciiTest, decide_eq_true_iff]
  exact Like.matches_contains

theorem like_starts (s t : String) : Like.matchTokens asciiEq
    (Like.parseEscaped (escapeLikePattern t ++ ['%'])) s.toList =
      asciiTest (fun s t => decide (t <+: s)) s t := by
  have hparse : Like.parseEscaped (escapeLikePattern t ++ ['%']) =
      t.toList.map .lit ++ [.any] := Like.parseEscaped_escape t.toList ['%']
  rw [hparse, Bool.eq_iff_iff, asciiTest, decide_eq_true_iff]
  exact Like.matches_starts

theorem like_ends (s t : String) : Like.matchTokens asciiEq
    (Like.parseEscaped ('%' :: escapeLikePattern t)) s.toList =
      asciiTest (fun s t => decide (t <:+ s)) s t := by
  have hescape := Like.parseEscaped_escape t.toList []
  rw [append_nil] at hescape
  have hparse : Like.parseEscaped ('%' :: escapeLikePattern t) = .any :: t.toList.map .lit :=
    congrArg (Like.Token.any :: ·) (hescape.trans (append_nil _))
  rw [hparse, Bool.eq_iff_iff, asciiTest, decide_eq_true_iff]
  exact Like.matches_ends

/-- What a search for the text `s` says of the text `t`. -/
def searchText (T : Texts) (field : String) (c : Condition) (op : Operator) (s t : String) : Option Bool :=
  match buildWhereClause T (.node .field field (some { c with op := op, value := .str s }) []) with
  | some (.like _ pattern) => sqlLike T (.text t) pattern
  | _ => none

/-- **A search text stands for itself**, whatever its characters are. -/
theorem searchText_exact (T : Texts) (field : String) (c : Condition) (s t : String) :
    searchText T field c .contains s t = some (asciiTest (fun t s => decide (s <:+: t)) t s) ∧
    searchText T field c .startsWith s t = some (asciiTest (fun t s => decide (s <+: t)) t s) ∧
    searchText T field c .endsWith s t = some (asciiTest (fun t s => decide (s <:+ t)) t s) := by
  simp only [searchText, buildWhereClause, buildCondition, Option.bind_some, sqlLike, T.sprint_str,
    String.toList_ofList]
  rw [like_contains, like_starts, like_ends]
  exact ⟨rfl, rfl, rfl⟩

theorem likeAgrees_iff (hv : Scalar v) {pattern : String} {test : List Char → List Char → Bool}
    (hpattern : ∀ s : String, Like.matchTokens asciiEq (Like.parseEscaped pattern.toList) s.toList = asciiTest test s (T.sprint w)) :
    sqlLike T (sqlOf v) pattern = some (stringTest A test v w) ↔ LikeAgrees A T test v w := by
  unfold LikeAgrees
  cases v with
  | arr items => cases hv
  | obj entries => cases hv
  | null => simp [sqlLike, sqlOf, toSql, Value.isNull]
  | bool b => simp [sqlLike, sqlOf, toSql, Value.isNull, hpattern, sqlText]
  | num x => simp [sqlLike, sqlOf, toSql, Value.isNull, hpattern, sqlText]
  | str s => simp [sqlLike, sqlOf, toSql, Value.isNull, hpattern, sqlText]

theorem test_cmp (x a : ℚ) : SqlOp.test .ge (cmp x a) = decide (a ≤ x) ∧
    SqlOp.test .le (cmp x a) = decide (x ≤ a) := by
  rcases lt_trichotomy x a with hlt | heq | hgt
  · simp [(cmp_eq_lt_iff x a).mpr hlt, SqlOp.test, hlt, hlt.le]
  · simp [heq, SqlOp.test]
  · simp [(cmp_eq_gt_iff x a).mpr hgt, SqlOp.test, hgt, hgt.le]

theorem rangeAgrees_iff (v min max : Value) : (((toSql min).isSome ∧ (toSql max).isSome) ∧
      Kleene.conj [sqlTest .ge (sqlOf v) min, sqlTest .le (sqlOf v) max] =
        some (inRange v min max)) ↔ RangeAgrees v min max := by
  refine and_congr_right fun _ => ?_
  by_cases hnum : ∃ x a b, v = .num x ∧ min = .num a ∧ max = .num b
  · refine iff_of_true ?_ (.inl hnum)
    obtain ⟨x, a, b, rfl, rfl, rfl⟩ := hnum
    have hge : sqlTest .ge (sqlOf (.num x)) (.num a) = some (decide (a ≤ x)) :=
      congrArg some (test_cmp x a).1
    have hle : sqlTest .le (sqlOf (.num x)) (.num b) = some (decide (x ≤ b)) :=
      congrArg some (test_cmp x b).2
    rw [hge, hle]
    simp only [inRange, toFloat64]
    cases decide (a ≤ x) <;> cases decide (x ≤ b) <;> decide
  · have hout : inRange v min max = false := by
      unfold inRange
      cases v <;> cases min <;> cases max <;> first
        | rfl
        | exact absurd ⟨_, _, _, rfl, rfl, rfl⟩ hnum
    rw [hout, Kleene.conj_eq_false, or_iff_right hnum, sqlTest_eq, sqlTest_eq]
    simp only [mem_cons, not_mem_nil, or_false, eq_comm (a := some false),
      Option.map_eq_some_iff]
    refine or_congr ⟨?_, ?_⟩ ⟨?_, ?_⟩
    · rintro ⟨o, ho, htest⟩
      cases o <;> cases htest
      exact ho
    · intro ho
      exact ⟨_, ho, rfl⟩
    · rintro ⟨o, ho, htest⟩
      cases o <;> cases htest
      exact ho
    · intro ho
      exact ⟨_, ho, rfl⟩

/-! ### A condition of a field -/

theorem oneKey_parts (h : OneKey field) : pathKey field.toList = some (field.toList, []) ∧
      (field.toList.splitOn '.').map String.ofList = [field] := by
  obtain ⟨hne, hchars⟩ := h
  have hlist : field.toList ≠ [] := fun hnil => hne (String.toList_eq_nil_iff.mp hnil)
  have hwhole : field.toList.takeWhile (fun c => c ≠ '.' && c ≠ '[') = field.toList :=
    takeWhile_eq_self_iff.mpr fun c hc => by
      obtain ⟨hdot, hbracket, _⟩ := hchars c hc
      simp [hdot, hbracket]
  constructor
  · unfold pathKey
    split
    · rename_i cs hcs
      exact absurd rfl (hchars '"' (by rw [hcs]; exact mem_cons_self)).2.2
    · rw [hwhole]
      simp [hlist]
  · rw [splitOn, splitOnP_eq_singleton fun c hc => by simp [(hchars c hc).1]]
    simp

theorem jsonExtract_plain (h : OneKey field) (payload : Object) :
    jsonExtract payload field = some (sqlOf (getFieldValue field payload)) := by
  obtain ⟨hkey, hparts⟩ := oneKey_parts h
  simp only [jsonExtract, hkey, getFieldValue, hparts, walk, String.ofList_toList]
  rfl

theorem getFieldValue_scalar (h : OneKey field) {payload : Object} (hflat : Flat payload) :
    Scalar (getFieldValue field payload) := by
  have hvalue : getFieldValue field payload = Object.at payload field := by
    rw [getFieldValue, (oneKey_parts h).2]
    rfl
  rw [hvalue, Object.at]
  cases hlookup : payload.lookup field with
  | none => trivial
  | some v =>
    obtain ⟨l₁, l₂, hsplit, _⟩ := lookup_eq_some_iff.mp hlookup
    exact (hflat (field, v) (by rw [hsplit]; simp)).1

theorem bound_of_test {op : SqlOp} {u : SqlValue} {b : Bool} (h : sqlTest op u w = some b) :
    (toSql w).isSome = true := by
  unfold sqlTest at h
  cases hw : toSql w with
  | none =>
    rw [hw] at h
    cases h
  | some y => rfl

/-- **The clause of a condition is known and right exactly if the condition agrees with the value of its
    field.** -/
theorem condition_agrees_iff (hfield : OneKey field) {payload : Object} (hflat : Flat payload)
    (cond : Condition) : (∃ c, buildCondition T field cond = some c ∧ c.runs = true ∧
      evalClause T payload c = some (cond.meaning A (getFieldValue field payload))) ↔
    cond.Agrees A T (getFieldValue field payload) := by
  have hruns : fieldRuns field = true := by
    unfold fieldRuns
    rw [(oneKey_parts hfield).1]
  have hextract := jsonExtract_plain hfield payload
  have hscalar := getFieldValue_scalar hfield hflat
  generalize getFieldValue field payload = v at hextract hscalar
  obtain ⟨op, value, values, min, max⟩ := cond
  have horder := compareNumeric_evalOrder v value
  -- a clause on a readable field runs if its value can be bound, and is evaluated on the value `v`
  cases op <;> simp only [buildCondition, Option.some.injEq, exists_eq_left', Clause.runs, hruns,
    evalClause, hextract, Option.bind_some, Condition.meaning, Condition.Agrees, Bool.true_and, true_and,
    iff_true]
  case equal =>
    rw [← equalAgrees_iff hscalar]
    exact and_iff_right_of_imp bound_of_test
  case notEqual =>
    rw [← equalAgrees_iff hscalar, sqlTest_ne, neg_eq_some]
    exact and_iff_right_of_imp bound_of_test
  case greater =>
    rw [← orderAgrees_iff, horder.1]
    exact and_iff_right_of_imp bound_of_test
  case greaterEqual =>
    rw [← orderAgrees_iff, horder.2.1]
    exact and_iff_right_of_imp bound_of_test
  case less =>
    rw [← orderAgrees_iff, horder.2.2.1]
    exact and_iff_right_of_imp bound_of_test
  case lessEqual =>
    rw [← orderAgrees_iff, horder.2.2.2]
    exact and_iff_right_of_imp bound_of_test
  case isIn =>
    cases values with
    | nil => simp [Clause.runs, evalClause, InAgrees]
    | cons w values =>
      simp only [isEmpty_cons, Bool.false_eq_true, if_false, Clause.runs, hruns, evalClause,
        hextract, Option.bind_some, Bool.true_and, all_eq_true,
        ← inAgrees_iff hscalar (cons_ne_nil w values)]
  case notIn =>
    cases values with
    | nil => simp [Clause.runs, evalClause, InAgrees]
    | cons w values =>
      simp only [isEmpty_cons, Bool.false_eq_true, if_false, Clause.runs, hruns, evalClause,
        hextract, Option.bind_some, Bool.true_and, all_eq_true,
        neg_eq_some, ← inAgrees_iff hscalar (cons_ne_nil w values)]
  case contains => exact likeAgrees_iff hscalar fun s => by rw [String.toList_ofList, like_contains]
  case startsWith => exact likeAgrees_iff hscalar fun s => by rw [String.toList_ofList, like_starts]
  case endsWith => exact likeAgrees_iff hscalar fun s => by rw [String.toList_ofList, like_ends]
  case isNull => cases v <;> first | rfl | cases hscalar
  case isNotNull => cases v <;> first | rfl | cases hscalar
  case range => rw [Bool.and_eq_true, ← rangeAgrees_iff]
  case unknown op => simp

/-! ## Trees of conditions -/

mutual

def Filter.leaves : Filter → List Filter
  | .nil => [.nil]
  | .node .and _ _ filters => leavesAll filters
  | .node .or _ _ filters => leavesAll filters
  | .node .not _ _ filters => leavesAll filters
  | .node .field field condition filters => [.node .field field condition filters]
  | .node (.unknown type) field condition filters => [.node (.unknown type) field condition filters]

def leavesAll : List Filter → List Filter
  | [] => []
  | f :: filters => f.leaves ++ leavesAll filters

end

def IsLeaf (l : Filter) : Prop :=
  l = .nil ∨ ∃ field cond filters, l = .node .field field (some cond) filters ∧ OneKey field

variable (A T) in
/-- The nil filter has no clause, and agrees with nothing. -/
def LeafAgrees (payload : Object) : Filter → Prop
  | .node .field field (some cond) _ => cond.Agrees A T (getFieldValue field payload)
  | _ => False

theorem clash_scalar {v : Value} (hv : Scalar v) (cond : Condition) : cond.clash v = false := by
  have hnone : ∀ w, clashes v w = false := by
    intro w
    cases v <;> first | rfl | cases hv
  obtain ⟨op, value, values, min, max⟩ := cond
  cases op <;> simp [Condition.clash, hnone]

theorem allMean_eq (payload : Object) (filters : List Filter) :
    allMean A payload filters = filters.all fun f => f.meaning A payload := by
  induction filters with
  | nil => rfl
  | cons f filters ih => rw [allMean, ih, all_cons]

theorem anyMeans_eq (payload : Object) (filters : List Filter) :
    anyMeans A payload filters = filters.any fun f => f.meaning A payload := by
  induction filters with
  | nil => rfl
  | cons f filters ih => rw [anyMeans, ih, any_cons]

section Tree

variable (A T) in
/-- A filter has a clause that runs, is known on the payload and says what the evaluator says. -/
def Translated (payload : Object) (f : Filter) : Prop :=
  ∃ c, buildWhereClause T f = some c ∧ c.runs = true ∧
    evalClause T payload c = some (f.meaning A payload)

variable {payload : Object} {filters : List Filter} {field : String} {condition : Option Condition}

theorem buildClauses_translated (h : ∀ f ∈ filters, Translated A T payload f) :
    ∃ cs, buildClauses T filters = cs ∧ cs.length = filters.length ∧ clausesRun cs = true ∧
      evalClauses T payload cs = filters.map fun f => some (f.meaning A payload) := by
  induction filters with
  | nil => exact ⟨[], rfl, rfl, rfl, rfl⟩
  | cons f filters ih =>
    obtain ⟨c, hc, hruns, heval⟩ := h f mem_cons_self
    obtain ⟨cs, hcs, hlength, hrunsAll, hevalAll⟩ :=
      ih fun g hg => h g (mem_cons_of_mem f hg)
    refine ⟨c :: cs, by rw [buildClauses, hc, hcs]; rfl, by simp [hlength], ?_, ?_⟩
    · rw [clausesRun, hruns, hrunsAll]
      rfl
    · rw [evalClauses, heval, hevalAll, map_cons]

theorem translated_and (hne : filters ≠ []) (h : ∀ f ∈ filters, Translated A T payload f) :
    Translated A T payload (.node .and field condition filters) := by
  obtain ⟨cs, hcs, hlength, hruns, heval⟩ := buildClauses_translated h
  have hcsne : cs ≠ [] := by
    rintro rfl
    exact hne (length_eq_zero_iff.mp hlength.symm)
  refine ⟨.and cs, by simp [buildWhereClause, hcs, hcsne], hruns, ?_⟩
  rw [evalClause, heval, Filter.meaning, allMean_eq]
  exact Kleene.conj_known fun _ _ => rfl

theorem translated_or (hne : filters ≠ []) (h : ∀ f ∈ filters, Translated A T payload f) :
    Translated A T payload (.node .or field condition filters) := by
  obtain ⟨cs, hcs, hlength, hruns, heval⟩ := buildClauses_translated h
  have hcsne : cs ≠ [] := by
    rintro rfl
    exact hne (length_eq_zero_iff.mp hlength.symm)
  refine ⟨.or cs, by simp [buildWhereClause, hcs, hcsne], hruns, ?_⟩
  rw [evalClause, heval, Filter.meaning, anyMeans_eq, isEmpty_eq_false_iff.mpr hne,
    Bool.false_or]
  exact Kleene.disj_known fun _ _ => rfl

theorem translated_not {f : Filter} (h : Translated A T payload f) :
    Translated A T payload (.node .not field condition (f :: filters)) := by
  obtain ⟨c, hc, hruns, heval⟩ := h
  refine ⟨.not c, by rw [buildWhereClause, hc]; rfl, hruns, ?_⟩
  rw [evalClause, heval, Filter.meaning]
  rfl

mutual

theorem translated_of_leaves (hflat : Flat payload) (f : Filter) (hvalid : validate f = .ok ())
    (hleaf : ∀ l ∈ f.leaves, IsLeaf l) (hagrees : ∀ l ∈ f.leaves, LeafAgrees A T payload l) :
    Translated A T payload f := by
  match f with
  | .nil => exact absurd (hagrees _ mem_cons_self) id
  | .node .and _ _ filters =>
    rw [validate] at hvalid
    split_ifs at hvalid with hempty
    exact translated_and (by simpa using hempty)
      (translated_of_leavesAll hflat filters hvalid hleaf hagrees)
  | .node .or _ _ filters =>
    rw [validate] at hvalid
    split_ifs at hvalid with hempty
    exact translated_or (by simpa using hempty)
      (translated_of_leavesAll hflat filters hvalid hleaf hagrees)
  | .node .not _ _ [f] =>
    refine translated_not (translated_of_leaves hflat f hvalid (fun l hl => hleaf l ?_)
      fun l hl => hagrees l ?_)
    · simpa [Filter.leaves, leavesAll] using hl
    · simpa [Filter.leaves, leavesAll] using hl
  | .node .not _ _ [] => cases hvalid
  | .node .not _ _ (_ :: _ :: _) => cases hvalid
  | .node .field field condition filters =>
    obtain hnil | ⟨field', cond, filters', heq, hplain⟩ := hleaf _ mem_cons_self
    · cases hnil
    · cases heq
      exact (condition_agrees_iff hplain hflat cond).mpr (hagrees _ mem_cons_self)
  | .node (.unknown _) _ _ _ => cases hvalid

theorem translated_of_leavesAll (hflat : Flat payload) (filters : List Filter)
    (hvalid : validateAll filters = .ok ()) (hleaf : ∀ l ∈ leavesAll filters, IsLeaf l)
    (hagrees : ∀ l ∈ leavesAll filters, LeafAgrees A T payload l) :
    ∀ f ∈ filters, Translated A T payload f := by
  match filters with
  | [] =>
    intro f hf
    cases hf
  | f :: filters =>
    rw [validateAll] at hvalid
    cases hf : validate f with
    | error e =>
      rw [hf] at hvalid
      cases hvalid
    | ok u =>
      rw [hf] at hvalid
      intro g hg
      rcases mem_cons.mp hg with heq | hg
      · rw [heq]
        exact translated_of_leaves hflat f hf (forall_mem_append.mp hleaf).1
          (forall_mem_append.mp hagrees).1
      · exact translated_of_leavesAll hflat filters hvalid
          (forall_mem_append.mp hleaf).2
          (forall_mem_append.mp hagrees).2 g hg

end

mutual

variable {payload : Object}

theorem clash_flat (hflat : Flat payload) (f : Filter) (hleaf : ∀ l ∈ f.leaves, IsLeaf l) :
    f.clash A payload = false := by
  match f with
  | .nil => rfl
  | .node .and _ _ filters => exact (clashAll_flat hflat filters hleaf).1
  | .node .or _ _ filters => exact (clashAll_flat hflat filters hleaf).2
  | .node .not _ _ [] => rfl
  | .node .not _ _ (f :: _) =>
    exact clash_flat hflat f (forall_mem_append.mp hleaf).1
  | .node .field field condition filters =>
    obtain hnil | ⟨field', cond, filters', heq, hplain⟩ := hleaf _ mem_cons_self
    · cases hnil
    · cases heq
      exact clash_scalar (getFieldValue_scalar hplain hflat) cond
  | .node (.unknown _) _ _ _ => rfl

theorem clashAll_flat (hflat : Flat payload) (filters : List Filter)
    (hleaf : ∀ l ∈ leavesAll filters, IsLeaf l) :
    clashAnd A payload filters = false ∧ clashOr A payload filters = false := by
  match filters with
  | [] => exact ⟨rfl, rfl⟩
  | f :: filters =>
    have hf := clash_flat hflat f (forall_mem_append.mp hleaf).1
    obtain ⟨hand, hor⟩ :=
      clashAll_flat hflat filters (forall_mem_append.mp hleaf).2
    rw [clashAnd, clashOr, hf, hand, hor]
    simp

end

theorem evaluate_flat (hflat : Flat payload) {f : Filter} (hleaf : ∀ l ∈ f.leaves, IsLeaf l) :
    evaluate A payload f = .value (f.meaning A payload) := by
  rw [evaluate_eq, clash_flat hflat f hleaf]
  rfl

theorem mem_filter_iff {idx : Index} {id : ℕ} (hid : idx.lookup id = some payload) (f : Filter) :
    id ∈ idx.filter T f ↔ ∃ c, buildWhereClause T f = some c ∧ c.runs = true ∧
        evalClause T payload c = some true := by
  unfold Index.filter
  cases buildWhereClause T f with
  | none => simp
  | some c =>
    simp only [Option.some.injEq, exists_eq_left']
    by_cases hruns : c.runs = true
    · simp only [hruns, if_true, mem_map, mem_filter, beq_iff_eq, true_and]
      constructor
      · intro ⟨⟨id', payload'⟩, ⟨hmem, htrue⟩, heq⟩
        have hlookup : idx.lookup id' = some payload' := AList.mem_lookup_iff.mpr hmem
        have heq' : id' = id := heq
        rw [heq', hid] at hlookup
        cases hlookup
        exact htrue
      · intro htrue
        exact ⟨⟨id, payload⟩, ⟨AList.mem_lookup_iff.mp hid, htrue⟩, rfl⟩
    · simp [hruns]

theorem leafAgrees_of_filters {idx : Index} {id : ℕ} (hid : idx.lookup id = some payload)
    (hflat : Flat payload) {l : Filter} (hl : IsLeaf l)
    (h : id ∈ idx.filter T l ↔ evaluate A payload l = .value true)
    (hnot : id ∈ idx.filter T (.not l) ↔ evaluate A payload (.not l) = .value true) :
    LeafAgrees A T payload l := by
  obtain hnil | ⟨field, cond, filters, heq, hplain⟩ := hl
  · subst hnil
    rw [mem_filter_iff hid] at h
    obtain ⟨c, hc, _⟩ := h.mpr rfl
    cases hc
  · subst heq
    refine (condition_agrees_iff hplain hflat cond).mp ?_
    have hmeaning : evaluate A payload (.node .field field (some cond) filters) =
        .value (cond.meaning A (getFieldValue field payload)) :=
      evaluate_flat hflat fun l hl => by
        rw [Filter.leaves, mem_singleton] at hl
        exact .inr ⟨_, _, _, hl, hplain⟩
    rw [mem_filter_iff hid, hmeaning, Outcome.value.injEq] at h
    rw [mem_filter_iff hid, Filter.not, evaluate, hmeaning, Outcome.value_bind, Outcome.pure_eq,
      Outcome.value.injEq, buildWhereClause] at hnot
    cases htrue : cond.meaning A (getFieldValue field payload) with
    | true => exact h.mpr htrue
    | false =>
      obtain ⟨c', hc', hruns, heval⟩ := hnot.mpr (by rw [htrue]; rfl)
      obtain ⟨c, hc, rfl⟩ := Option.map_eq_some_iff.mp hc'
      exact ⟨c, hc, hruns, neg_eq_some.mp heval⟩

/-- **The query and the evaluator agree on every filter that `Validate` accepts and that is made of the
    conditions `C`, on an index of flat payloads, if and only if each condition agrees with each payload.** -/
theorem filter_agrees_iff (A : Folding) (T : Texts) {idx : Index}
    (hflat : ∀ id payload, idx.lookup id = some payload → Flat payload) {C : Set Filter}
    (hC : ∀ l ∈ C, IsLeaf l) :
    (∀ f, validate f = .ok () → (∀ l ∈ f.leaves, l ∈ C) →
      ∀ id payload, idx.lookup id = some payload →
        (id ∈ idx.filter T f ↔ evaluate A payload f = .value true)) ↔
    ∀ l ∈ C, ∀ id payload, idx.lookup id = some payload → LeafAgrees A T payload l := by
  constructor
  · intro h l hl id payload hid
    have hvalid : validate l = .ok () := by
      obtain hnil | ⟨field, cond, filters, heq, hplain⟩ := hC l hl
      · rw [hnil]
        rfl
      · rw [heq, validate, if_neg hplain.1]
        rfl
    have hself : l.leaves = [l] := by
      obtain hnil | ⟨field, cond, filters, heq, _⟩ := hC l hl
      · rw [hnil]
        rfl
      · rw [heq]
        rfl
    refine leafAgrees_of_filters hid (hflat id payload hid) (hC l hl)
      (h l hvalid (fun l' hl' => ?_) id payload hid)
      (h (.not l) hvalid (fun l' hl' => ?_) id payload hid)
    · rw [hself, mem_singleton] at hl'
      rw [hl']
      exact hl
    · rw [Filter.not, Filter.leaves, leavesAll, leavesAll, hself, append_nil, mem_singleton] at hl'
      rw [hl']
      exact hl
  · intro h f hvalid hleaves id payload hid
    have hleaf : ∀ l ∈ f.leaves, IsLeaf l := fun l hl => hC l (hleaves l hl)
    obtain ⟨c, hc, hruns, heval⟩ := translated_of_leaves (hflat id payload hid) f hvalid hleaf
      fun l hl => h l (hleaves l hl) id payload hid
    rw [mem_filter_iff hid, evaluate_flat (hflat id payload hid) hleaf, Outcome.value.injEq]
    constructor
    · intro ⟨c', hc', _, heval'⟩
      rw [hc] at hc'
      cases hc'
      rw [heval] at heval'
      injection heval'
    · intro htrue
      exact ⟨c, hc, hruns, by rw [heval, htrue]⟩

end Tree

end Agree

/-! ### One point -/

def plainTexts : Texts where
  sprint
    | .str s => s
    | _ => ""
  sprint_str _ := rfl
  numText _ := ""

def romePayload : Object := [("age", .num 30), ("city", .str "Rome")]

def romeIndex : Index := Index.indexPoint ∅ 1 romePayload

/-- **Where the two part**: a missing field is unknown to SQLite and stays so under NOT, a text in another
    case is another text, a text is above every number, and a bracket in a name leads into a list. -/
theorem filter_disagrees :
    (romeIndex.filter plainTexts (.ofField "name" (.ne (.str "Bob"))) = [] ∧
      evaluate asciiFolding romePayload (.ofField "name" (.ne (.str "Bob"))) = .value true) ∧
    (romeIndex.filter plainTexts (.ofField "city" (.eq (.str "rome"))) = [] ∧
      evaluate asciiFolding romePayload (.ofField "city" (.eq (.str "rome"))) = .value true) ∧
    (romeIndex.filter plainTexts (.ofField "city" (.gt (.num 5))) = [1] ∧
      evaluate asciiFolding romePayload (.ofField "city" (.gt (.num 5))) = .value false) ∧
    ((Index.indexPoint ∅ 1 [("a[0]", .num 5)]).filter plainTexts (.ofField "a[0]" (.eq (.num 5))) = [] ∧
      evaluate asciiFolding [("a[0]", .num 5)] (.ofField "a[0]" (.eq (.num 5))) = .value true) := by
  decide +kernel

theorem filter_agrees_rome : romeIndex.filter plainTexts
      (.and [.ofField "age" (.gte (.num 18)), .not (.ofField "city" (.eq (.str "Oslo")))]) = [1] ∧
    ∀ f, validate f = .ok () → (∀ l ∈ f.leaves, l ∈ ({.ofField "age" (.gte (.num 18)),
        .ofField "city" (.eq (.str "Oslo"))} : Set Filter)) →
      ∀ id payload, romeIndex.lookup id = some payload →
        (id ∈ romeIndex.filter plainTexts f ↔ evaluate asciiFolding payload f = .value true) := by
  have hrome : ∀ id payload, romeIndex.lookup id = some payload → payload = romePayload := by
    intro id payload hid
    have hinsert : romeIndex = (∅ : Index).insert 1 romePayload := rfl
    by_cases hone : id = 1
    · rw [hone, hinsert, AList.lookup_insert] at hid
      injection hid.symm
    · rw [hinsert, AList.lookup_insert_ne hone] at hid
      cases hid
  refine ⟨by decide +kernel, (filter_agrees_iff asciiFolding plainTexts (fun id payload hid => ?_)
    fun l hl => ?_).mpr fun l hl id payload hid => ?_⟩
  · rw [hrome id payload hid]
    intro e he
    simp only [romePayload, mem_cons, not_mem_nil, or_false] at he
    rcases he with rfl | rfl
    · exact ⟨trivial, rfl⟩
    · exact ⟨trivial, rfl⟩
  · rcases hl with rfl | rfl
    · exact .inr ⟨_, _, _, rfl, by simp [OneKey]⟩
    · exact .inr ⟨_, _, _, rfl, by simp [OneKey]⟩
  · rw [hrome id payload hid]
    rcases hl with rfl | rfl
    · exact .inl ⟨30, 18, by rfl, rfl⟩
    · exact iff_of_false (by decide) (by decide)

end LimyeDB.Payload
