/-
  BROADCASTS of events to the clients that have a subscription. The values of a client's filter are compared
  by `!=` on interfaces, which panics on two lists and on two objects.
-/
import LimyeDB.Payload.Filter

namespace LimyeDB.Realtime

open Go Payload List

structure Event where
  type : String
  collection : String
  data : Option Object

structure Subscription where
  collection : String
  events : List String
  filter : Object

/-- An order in which a map is ranged over. -/
structure Order (α : Type) where
  of : List α → List α
  perm : ∀ l, of l ~ l

def valueNe : Value → Value → Outcome Empty Bool
  | .null, .null => .value false
  | a, b => do return !(← interfaceEq a b)

def entryDiffers (data : Object) (entry : String × Value) : Outcome Empty Bool :=
  match data.lookup entry.1 with
  | none => .value true
  | some v => valueNe v entry.2

def Subscription.wants (event : Event) (sub : Subscription) : Bool :=
  (sub.collection = "" ∨ sub.collection = event.collection ∨ sub.collection = "*") ∧
    (sub.events = [] ∨ event.type ∈ sub.events)

def Subscription.check (entries : Order (String × Value)) (event : Event) (sub : Subscription) :
    Outcome Empty Bool :=
  if !sub.wants event then .value false
  else if sub.filter = [] then .value true
  else
    match event.data with
    | none => .value false
    | some data => do return !(← (entries.of sub.filter).anyM (entryDiffers data))

def shouldSendToClient (entries : Order (String × Value)) (subs : Order Subscription) (event : Event)
    (client : List Subscription) : Outcome Empty Bool :=
  (subs.of client).anyM (Subscription.check entries event)

/-- For each client, if the event is offered to it; a handler may cancel the broadcast. -/
def broadcastEvent (entries : Order (String × Value)) (subs : Order Subscription)
    (handlers : List (Event → Bool)) (event : Event) (clients : List (List Subscription)) :
    Outcome Empty (List Bool) :=
  if handlers.all (· event) then clients.mapM (shouldSendToClient entries subs event)
  else .value (clients.map fun _ => false)

/-! ## When it is exact -/

def Subscription.Matches (event : Event) (sub : Subscription) : Prop :=
  sub.wants event = true ∧ (sub.filter = [] ∨
    ∃ data ∈ event.data, ∀ entry ∈ sub.filter, data.lookup entry.1 = some entry.2)

/-- No list meets a list and no object an object. -/
def Subscription.Comparable (event : Event) (sub : Subscription) : Prop :=
  sub.wants event = true → ∀ data ∈ event.data, ∀ entry ∈ sub.filter, ∀ v, data.lookup entry.1 = some v →
    match v, entry.2 with
    | .arr _, .arr _ => False
    | .obj _, .obj _ => False
    | _, _ => True

variable {α : Type}

theorem Order.exists_first (a : α) : ∃ o : Order α, ∀ l, a ∈ l → ∃ t, o.of l = a :: t := by
  classical
  refine ⟨⟨fun l => if a ∈ l then a :: l.erase a else l, fun l => ?_⟩, fun l ha => ⟨_, if_pos ha⟩⟩
  split
  case isTrue ha => exact (perm_cons_erase ha).symm
  case isFalse => exact .refl l

/-- A loop that stops at the first hit, in any order. -/
theorem anyM_value {f : α → Outcome Empty Bool} {P : α → Prop} [DecidablePred P] (o : Order α) {l : List α}
    (h : ∀ a ∈ l, f a = .value (decide (P a))) : (o.of l).anyM f = .value (decide (∃ a ∈ l, P a)) := by
  have hany : ∀ l : List α, (∀ a ∈ l, f a = .value (decide (P a))) →
      l.anyM f = .value (decide (∃ a ∈ l, P a)) := by
    intro l h
    induction l with
    | nil => rfl
    | cons a l ih =>
      obtain ⟨ha, hl⟩ := forall_mem_cons.mp h
      by_cases hP : P a <;> simp [anyM, ha, hP, ih hl]
  rw [hany _ fun a ha => h a ((o.perm l).mem_iff.mp ha)]
  simp only [(o.perm l).mem_iff]

open Classical in
theorem check_value (entries : Order (String × Value)) {event : Event} {sub : Subscription}
    (h : sub.Comparable event) : sub.check entries event = .value (decide (sub.Matches event)) := by
  unfold Subscription.check Subscription.Matches
  by_cases hwants : sub.wants event = true
  · by_cases hfilter : sub.filter = []
    · simp [hwants, hfilter]
    cases hdata : event.data with
    | none => simp [hwants, hfilter]
    | some data =>
      have hentry : ∀ e ∈ sub.filter, entryDiffers data e =
          .value (decide (data.lookup e.1 ≠ some e.2)) := by
        intro e he
        unfold entryDiffers
        cases hv : data.lookup e.1 with
        | none => simp
        | some v =>
          have hcomp := h hwants data hdata e he v hv
          obtain ⟨key, w⟩ := e
          cases v <;> cases w <;> simp_all [valueNe, interfaceEq, Bool.beq_eq_decide_eq]
      simp only [hwants, hfilter, anyM_value entries hentry, Outcome.value_bind, Outcome.pure_eq]
      simp [← decide_not]
  · simp [hwants]

open Classical in
/-- **A broadcast is exact** in every order, just if no list meets a list and no object an object. -/
theorem broadcast_exact_iff (handlers : List (Event → Bool)) (event : Event)
    (clients : List (List Subscription)) :
    (∀ (entries : Order (String × Value)) (subs : Order Subscription) (order : Order (List Subscription)),
      broadcastEvent entries subs handlers event (order.of clients) = .value ((order.of clients).map
        fun client => handlers.all (· event) && decide (∃ sub ∈ client, sub.Matches event))) ↔
      (handlers.all (· event) = true → ∀ client ∈ clients, ∀ sub ∈ client, sub.Comparable event) := by
  unfold broadcastEvent
  cases handlers.all (· event) with
  | false => simp
  | true =>
    simp only [if_true, Bool.true_and, forall_const]
    constructor
    · intro h client hclient sub hsub hwants data hdata entry hentry v hv
      -- the order that comes to this entry first
      obtain ⟨order, horder⟩ := Order.exists_first client
      obtain ⟨subs, hsubs⟩ := Order.exists_first sub
      obtain ⟨entries, hentries⟩ := Order.exists_first entry
      obtain ⟨_, horder⟩ := horder clients hclient
      obtain ⟨_, hsubs⟩ := hsubs client hsub
      obtain ⟨_, hentries⟩ := hentries _ hentry
      have hrun := h entries subs order
      obtain ⟨key, w⟩ := entry
      have hfilter : sub.filter ≠ [] := ne_nil_of_mem hentry
      rw [horder, mapM_cons] at hrun
      split
      all_goals
        simp_all [shouldSendToClient, Subscription.check, entryDiffers, valueNe, interfaceEq]
    · intro h entries subs order
      exact Outcome.mapM_value fun client hclient => anyM_value subs fun sub hsub =>
        check_value entries (h client ((order.perm _).mem_iff.mp hclient) sub hsub)

/-- One filter is enough to stop the hub. -/
theorem broadcast_panics : broadcastEvent ⟨id, .refl⟩ ⟨id, .refl⟩ []
    ⟨"point.insert", "docs", some [("tags", .arr [])]⟩ [[⟨"docs", [], [("tags", .arr [])]⟩]] = .panic := by
  rfl

end LimyeDB.Realtime
