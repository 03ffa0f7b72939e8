/-
  THE gRPC SERVICE (api/grpc, pkg/auth): the interceptor that turns a token into claims, for unary calls only,
  every method with its own check, and what a caller without the right to write can do.
-/
import LimyeDB.Server.Manager

namespace LimyeDB.Grpc

open Go Hybrid Server Lib.Runs List
open LimyeDB.Graph (Distance VisitedList)
open LimyeDB.Collection (Error validateName)
open LimyeDB.Snapshot (Coding readCollection)

/-! ## Claims -/

/-- The permissions of a token. A collection that is not in the map has none. -/
structure TokenClaims where
  globalAdmin : Bool
  collections : Bytes → Option (List Bytes)

/-- "READ_ONLY". -/
def readOnly : Bytes := [82, 69, 65, 68, 95, 79, 78, 76, 89]

/-- "READ_WRITE". -/
def readWrite : Bytes := [82, 69, 65, 68, 95, 87, 82, 73, 84, 69]

/-- "COLLECTION_ADMIN". -/
def collectionAdmin : Bytes := [67, 79, 76, 76, 69, 67, 84, 73, 79, 78, 95, 65, 68, 77, 73, 78]

/-- "bearer". -/
def bearer : Bytes := [98, 101, 97, 114, 101, 114]

def toLower (b : UInt8) : UInt8 := if 65 ≤ b ∧ b ≤ 90 then b + 32 else b

def equalFold (a b : Bytes) : Bool := a.map toLower == b.map toLower

variable {collection : Bytes}

namespace TokenClaims

/-- One of the collection's permissions passes the test, or the claims are global. -/
def allows (test : Bytes → Bool) (c : TokenClaims) (collection : Bytes) : Bool :=
  c.globalAdmin || ((c.collections collection).getD []).any test

def canRead : TokenClaims → Bytes → Bool :=
  allows fun p => p == readOnly || p == collectionAdmin || p == readWrite

def canWrite : TokenClaims → Bytes → Bool :=
  allows fun p => equalFold p collectionAdmin || equalFold p readWrite

def canAdmin : TokenClaims → Bytes → Bool := allows fun p => equalFold p collectionAdmin

theorem canWrite_of_canAdmin {c : TokenClaims}
    (h : c.canAdmin collection = true) : c.canWrite collection = true := by
  unfold canWrite allows
  rcases Bool.or_eq_true_iff.mp h with hglobal | hany
  · rw [hglobal, Bool.true_or]
  · obtain ⟨p, hp, htest⟩ := any_eq_true.mp hany
    have hsome : ((c.collections collection).getD []).any (fun p =>
        equalFold p collectionAdmin || equalFold p readWrite) = true :=
      any_eq_true.mpr ⟨p, hp, by rw [htest, Bool.true_or]⟩
    rw [hsome, Bool.or_true]

end TokenClaims

inductive Action where
  | read
  | write
  | admin
  deriving DecidableEq, Repr

/-- Without claims, authentication is taken to be off. -/
def checkPermission : Option TokenClaims → Bytes → Action → Bool
  | none, _, _ => true
  | some claims, collection, .read => claims.canRead collection
  | some claims, collection, .write => claims.canWrite collection
  | some claims, collection, .admin => claims.canAdmin collection

/-- The configured token, and the check of a JWT that is signed with it. -/
structure Auth where
  authToken : Bytes
  validate : Bytes → Option TokenClaims

inductive Code where
  | ok
  | unauthenticated
  | permissionDenied
  | invalidArgument
  | notFound
  | unavailable
  | internal
  deriving DecidableEq, Repr

/-- What a call says of its caller: no metadata, or the values of its `authorization` key. -/
abbrev Metadata := Option (List Bytes)

def splitBlank (value : Bytes) : Option (Bytes × Bytes) :=
  match value.span (· != 32) with
  | (_, []) => none
  | (scheme, _ :: token) => some (scheme, token)

/-- No claims if no token is configured, those of the JWT, or all of them for the configured token itself. -/
def authInterceptor (A : Auth) (md : Metadata) : Except Code (Option TokenClaims) :=
  if A.authToken = [] then .ok none
  else
    match md with
    | none => .error .unauthenticated
    | some [] => .error .unauthenticated
    | some (value :: _) =>
      match splitBlank value with
      | none => .error .unauthenticated
      | some (scheme, token) =>
        if scheme.map toLower ≠ bearer then .error .unauthenticated
        else
          match A.validate token with
          | some claims => .ok (some claims)
          | none =>
            -- "Bearer " and the token
            if value = [66, 101, 97, 114, 101, 114, 32] ++ A.authToken then
              .ok (some ⟨true, fun _ => none⟩)
            else .error .unauthenticated

/-! ## The methods -/

variable {F P D Q C S J : Type} [Scalar F] [Distance D]

/-- The configuration of a request, with the index parameters if they are given. -/
structure CollectionConfig where
  name : Bytes
  dimension : ℕ
  metric : Metric
  hnsw : Option (ℕ × Int × Int)

def CollectionConfig.config (c : CollectionConfig) : Hybrid.Config :=
  let (M, efConstruction, efSearch) := c.hnsw.getD (0, 0, 0)
  ⟨c.name, c.dimension, c.metric, M, efConstruction, efSearch, []⟩

/-- The unary methods. A search has a list from the pool for each of its vectors. -/
inductive Rpc (F P D Q C S : Type) where
  | createCollection (config : Option CollectionConfig)
  | getCollection (name : Bytes)
  | listCollections
  | deleteCollection (name : Bytes)
  | upsertPoints (collection : Bytes) (points : List (Point F P))
  | getPoints (collection : Bytes) (ids : List Bytes) (withVector withPayload : Bool)
  | deletePoints (collection : Bytes) (ids : List Bytes)
  | search (collection : Bytes) (vectorName : Bytes) (params : SearchParams F P) (query : List F)
    (visited : VisitedList)
  | searchBatch (collection : Bytes) (vectorName : Bytes) (params : SearchParams F P)
    (queries : List (List F × VisitedList))
  | recommend (collection : Bytes) (positiveIds : List Bytes)
    (recommend : Hybrid.Collection F P D Q C S → Bytes →
      Outcome SearchError (List (ScoredPoint F P D)))
  | discover (collection : Bytes)
    (discover : Hybrid.Collection F P D Q C S → Outcome SearchError (List (ScoredPoint F P D)))
  | createSnapshot (now timestamp : ℕ)
  | listSnapshots
  | restoreSnapshot (id : Bytes)
  | health

inductive Call (F P D Q C S : Type) where
  | unary (rpc : Rpc F P D Q C S)
  | streamUpsertPoints (messages : List (Bytes × List (Point F P)))

inductive Reply (F P D : Type) where
  | status (code : Code)
  | collections (names : List Bytes)
  | upserted (success : Bool) (count : ℕ)
  | deleted (count : ℕ)
  | points (points : List (Point F P))
  | results (results : List (List (ScoredPoint F P D)))
  | snapshots (ids : List Bytes)
  deriving DecidableEq, Repr

/-- `snapshots` is `none` if they are not configured. -/
structure Service (F P D Q C S : Type) where
  collections : Manager F P D Q C S
  snapshots : Option SnapshotDir

def safeIntToInt32 (v : ℕ) : ℕ := min v 2147483647

def insertEach (K : Kit F P D Q C S) (c : Hybrid.Collection F P D Q C S) :
    List (Point F P) → Outcome Empty (Hybrid.Collection F P D Q C S × ℕ × ℕ)
  | [] => .value (c, 0, 0)
  | p :: points => do
    let (c, err) ← Hybrid.insert K c p
    let (c, upserted, failed) ← insertEach K c points
    return if err.isNone then (c, upserted + 1, failed) else (c, upserted, failed + 1)

def getEach (K : Kit F P D Q C S) (c : Hybrid.Collection F P D Q C S) :
    List Bytes → Outcome Empty (List (Point F P))
  | [] => .value []
  | id :: ids =>
    match Hybrid.get K c id with
    | .panic => .panic
    | .error _ => getEach K c ids
    | .value p => do
      let ps ← getEach K c ids
      return p :: ps

def pointToProto (withVector withPayload : Bool) (p : Point F P) : Point F P :=
  { p with
    vector := if withVector then p.vector else []
    payload := if withPayload then p.payload else none }

/-- A limit that is not positive is 10. -/
def limited (params : SearchParams F P) : SearchParams F P :=
  { params with K := if params.K ≤ 0 then 10 else params.K }

def searchEach (K : Kit F P D Q C S) (c : Hybrid.Collection F P D Q C S) (vectorName : Bytes)
    (params : SearchParams F P) :
    List (List F × VisitedList) → Outcome Empty (List (List (ScoredPoint F P D)))
  | [] => .value []
  | (query, visited) :: queries =>
    match searchV2WithParams K c visited query vectorName params with
    | .panic => .panic
    | .error _ => do
      let results ← searchEach K c vectorName params queries
      return [] :: results
    | .value points => do
      let results ← searchEach K c vectorName params queries
      return points :: results

def answered {ε α : Type} (reply : α → Reply F P D) : Outcome ε α → Outcome Empty (Reply F P D)
  | .value a => .value (reply a)
  | .error _ => .value (.status .internal)
  | .panic => .panic

namespace Service

variable (W : Site F P D Q C S J)

def reading (s : Service F P D Q C S) (claims : Option TokenClaims) (collection : Bytes)
    (read : Hybrid.Collection F P D Q C S → Outcome Empty (Reply F P D)) :
    Outcome Empty (Service F P D Q C S × Reply F P D) :=
  if !checkPermission claims collection .read then .value (s, .status .permissionDenied)
  else
    match s.collections.collections.lookup collection with
    | none => .value (s, .status .notFound)
    | some e => do
      let reply ← read (s.collections.lend e)
      return (s, reply)

def writing {α : Type} (s : Service F P D Q C S) (claims : Option TokenClaims) (collection : Bytes)
    (write : Hybrid.Collection F P D Q C S → Outcome Empty (Hybrid.Collection F P D Q C S × α))
    (reply : α → Reply F P D) : Outcome Empty (Service F P D Q C S × Reply F P D) :=
  if !checkPermission claims collection .write then .value (s, .status .permissionDenied)
  else do
    let (m, r) ← s.collections.on collection write
    return ({ s with collections := m }, (r.map reply).getD (.status .notFound))

/-- The methods behind the interceptor, with the claims of the context. -/
def unary (s : Service F P D Q C S) (claims : Option TokenClaims) :
    Rpc F P D Q C S → Outcome Empty (Service F P D Q C S × Reply F P D)
  | .createCollection none => .panic
  | .createCollection (some config) =>
    if !checkPermission claims config.name .write then .value (s, .status .permissionDenied)
    else
      let (m, err) := s.collections.create W config.config
      .value ({ s with collections := m }, .status (if err.isNone then .ok else .internal))
  | .getCollection name => s.reading claims name fun _ => .value (.status .ok)
  | .listCollections => .value (s, .collections (s.collections.collections.keys.filter fun name =>
      checkPermission claims name .read))
  | .deleteCollection name =>
    if !checkPermission claims name .admin then .value (s, .status .permissionDenied)
    else
      let (m, err) := s.collections.delete name
      .value ({ s with collections := m }, .status (if err.isNone then .ok else .notFound))
  | .upsertPoints collection points =>
    s.writing claims collection (fun c => insertBatch (W.kit c.config) c points) fun (r, err) =>
      if err.isNone then .upserted (r.failed == 0) (safeIntToInt32 r.succeeded)
      else .status .internal
  | .getPoints collection ids withVector withPayload =>
    s.reading claims collection fun c => do
      let ps ← getEach (W.kit c.config) c ids
      return .points (ps.map (pointToProto withVector withPayload))
  | .deletePoints collection ids =>
    s.writing claims collection (fun c => deleteEach c ids) fun n => .deleted (safeIntToInt32 n)
  | .search collection vectorName params query visited =>
    s.reading claims collection fun c => answered (fun points => .results [points])
      (searchV2WithParams (W.kit c.config) c visited query vectorName (limited params))
  | .searchBatch collection vectorName params queries =>
    s.reading claims collection fun c => answered .results
      (searchEach (W.kit c.config) c vectorName (limited params) queries)
  | .recommend collection positiveIds recommend =>
    s.reading claims collection fun c =>
      match positiveIds with
      | [] => .value (.status .invalidArgument)
      | id :: _ => answered (fun points => .results [points]) (recommend c id)
  | .discover collection discover =>
    s.reading claims collection fun c => answered (fun points => .results [points]) (discover c)
  | .createSnapshot now timestamp =>
    match s.snapshots with
    | none => .value (s, .status .unavailable)
    | some dir =>
      match createSnapshot W s.collections timestamp with
      | .panic => .panic
      | .error _ => .value (s, .status .internal)
      | .value b =>
        .value ({ s with snapshots := some (dir.insert (snapID now) b) }, .snapshots [snapID now])
  | .listSnapshots =>
    match s.snapshots with
    | none => .value (s, .status .unavailable)
    | some dir => .value (s, .snapshots dir.keys)
  | .restoreSnapshot id =>
    match s.snapshots with
    | none => .value (s, .status .unavailable)
    | some dir => do
      let (m, err) ← restoreSnapshot W s.collections dir id
      return ({ s with collections := m }, .status (if err.isNone then .ok else .internal))
  | .health => .value (s, .status .ok)

/-- One message after the other. There is no interceptor before this and no check in it. -/
def streamUpsertPoints (s : Service F P D Q C S) : List (Bytes × List (Point F P)) →
    Outcome Empty (Service F P D Q C S × ℕ × ℕ)
  | [] => .value (s, 0, 0)
  | (collection, points) :: messages => do
    let (m, r) ← s.collections.on collection fun c => insertEach (W.kit c.config) c points
    let (s, upserted, failed) ← streamUpsertPoints { s with collections := m } messages
    let (n, bad) := r.getD (0, 1)
    return (s, n + upserted, bad + failed)

def serve (A : Auth) (s : Service F P D Q C S) (md : Metadata) :
    Call F P D Q C S → Outcome Empty (Service F P D Q C S × Reply F P D)
  | .unary rpc =>
    match authInterceptor A md with
    | .error code => .value (s, .status code)
    | .ok claims => s.unary W claims rpc
  | .streamUpsertPoints messages => do
    let (s, upserted, failed) ← s.streamUpsertPoints W messages
    return (s, .upserted (failed == 0) upserted)

def step (A : Auth) (s : Service F P D Q C S) (call : Metadata × Call F P D Q C S) :
    Option (Service F P D Q C S) :=
  match s.serve W A call.1 call.2 with
  | .value (s, _) => some s
  | _ => none

end Service

/-! ## What a call can touch -/

/-- The call has no claims that give the right to write the collection. -/
def Powerless (A : Auth) (X : Bytes) (md : Metadata) : Prop :=
  ∀ claims, authInterceptor A md = .ok (some claims) → claims.canWrite X = false

/-- The names of a snapshot, up to where it cannot be read. -/
def streamNames {Cfg : Type} (J : Coding F P Cfg) : ℕ → Bytes → List Bytes
  | 0, _ => []
  | n + 1, r =>
    match readCollection J r with
    | .value ((name, _), r) => name :: streamNames J n r
    | _ => []

/-- **The call uses neither way past the permissions**: it streams no points to the collection and restores no
    snapshot that has it. -/
def Spares (W : Site F P D Q C S J) (A : Auth) (X : Bytes) (s : Service F P D Q C S) :
    Metadata × Call F P D Q C S → Prop
  | (_, .streamUpsertPoints messages) =>
    s.collections.exist X = true → ∀ msg ∈ messages, msg.1 = X → msg.2 = []
  | (md, .unary (.restoreSnapshot id)) => (∃ claims, authInterceptor A md = .ok claims) →
    ∀ dir n r, s.snapshots = some dir → openSnapshot dir id = .value (n, r) →
      X ∉ streamNames W.coding n r
  | _ => True

def bare (e : Entry F P D Q C S) : Entry F P D Q C S :=
  { e with coll := { e.coll with wal := none } }

/-- **The collection is there or not as before, as the same object with everything in it.** -/
def Untouched (X : Bytes) (m m' : Manager F P D Q C S) : Prop :=
  (m'.collections.lookup X).map bare = (m.collections.lookup X).map bare

section Touch

variable {W : Site F P D Q C S J} {A : Auth} {X : Bytes} {m m' m'' : Manager F P D Q C S}
  {s s' : Service F P D Q C S}

section

omit [Scalar F] [Distance D]

theorem Untouched.trans (h₁ : Untouched X m m') (h₂ : Untouched X m' m'') : Untouched X m m'' :=
  Eq.trans h₂ h₁

theorem untouched_insert {name : Bytes} {e : Entry F P D Q C S}
    (hcollections : m'.collections = m.collections.insert name e) (hne : name ≠ X) :
    Untouched X m m' := by
  unfold Untouched
  rw [hcollections, AList.lookup_insert_ne hne.symm]

theorem untouched_on {α : Type} {name : Bytes} {r : Option α}
    {f : Hybrid.Collection F P D Q C S → Outcome Empty (Hybrid.Collection F P D Q C S × α)}
    (hon : m.on name f = .value (m', r)) (hne : name ≠ X) : Untouched X m m' := by
  rcases Manager.on_cases hon with ⟨-, rfl, -⟩ | ⟨e, c, a, -, -, rfl, -⟩
  · rfl
  · exact untouched_insert rfl hne

theorem Untouched.exist (h : Untouched X m m') : m'.exist X = m.exist X := by
  have hsome := congrArg Option.isSome h
  rwa [Option.isSome_map, Option.isSome_map] at hsome

theorem writing_untouched {α : Type} {claims : TokenClaims}
    {write : Hybrid.Collection F P D Q C S → Outcome Empty (Hybrid.Collection F P D Q C S × α)}
    {reply : α → Reply F P D} {r : Reply F P D} (hno : claims.canWrite X = false)
    (hreq : s.writing (some claims) collection write reply = .value (s', r)) :
    Untouched X s.collections s'.collections := by
  unfold Service.writing at hreq
  split at hreq
  · cases hreq
    rfl
  · rename_i hperm
    obtain ⟨⟨m, a⟩, hon, hret⟩ := Outcome.bind_eq_value.mp hreq
    cases hret
    refine untouched_on hon fun heq => ?_
    simp [heq, checkPermission, hno] at hperm

theorem reading_untouched {claims : Option TokenClaims}
    {read : Hybrid.Collection F P D Q C S → Outcome Empty (Reply F P D)} {r : Reply F P D}
    (hreq : s.reading claims collection read = .value (s', r)) :
    Untouched X s.collections s'.collections := by
  unfold Service.reading at hreq
  split at hreq
  · cases hreq
    rfl
  · split at hreq
    · cases hreq
      rfl
    · obtain ⟨reply, -, hret⟩ := Outcome.bind_eq_value.mp hreq
      cases hret
      rfl

end

theorem restoreLoop_untouched {n : ℕ} {r : Bytes} {e : Option RestoreError}
    (hloop : restoreLoop W n r m = .value (m', e)) (hX : X ∉ streamNames W.coding n r) :
    Untouched X m m' := by
  induction n generalizing r m with
  | zero =>
    cases hloop
    rfl
  | succ n ih =>
    obtain ⟨⟨m₁, x⟩, hone, hrest⟩ := Outcome.bind_eq_value.mp hloop
    obtain ⟨hsame, ⟨e', rfl⟩ | ⟨name, data, cfg, c₀, c, r', hread, -, -, -, rfl⟩⟩ :=
      restoreOne_cases hone
    · cases hrest
      exact congrArg (fun t => (AList.lookup X t).map bare) hsame
    · simp only [streamNames, hread, mem_cons, not_or] at hX
      simp only at hrest
      have hsaved := saveMetadata_collections
        { m₁ with collections := m₁.collections.insert name ⟨m₁.made - 1, false, c⟩ } cfg
      have hplaced : Untouched X m ({ m₁ with
          collections := m₁.collections.insert name ⟨m₁.made - 1, false, c⟩ }.saveMetadata cfg).1 :=
        untouched_insert (hsaved.trans (by rw [hsame])) (Ne.symm hX.1)
      split at hrest
      · rename_i hsave
        rw [hsave] at hplaced
        cases hrest
        exact hplaced
      · rename_i hsave
        rw [hsave] at hplaced
        exact hplaced.trans (ih hrest hX.2)

theorem message_untouched {points : List (Point F P)} {r : Option (ℕ × ℕ)}
    (hspares : m.exist X = true → collection = X → points = [])
    (hon : m.on collection (fun c => insertEach (W.kit c.config) c points) = .value (m', r)) :
    Untouched X m m' := by
  by_cases hX : collection = X
  · subst hX
    rcases Manager.on_cases hon with ⟨-, rfl, -⟩ | ⟨e, c, a, he, hins, rfl, -⟩
    · rfl
    · have hexist : m.exist collection = true := by
        unfold Manager.exist
        rw [he]
        rfl
      rw [hspares hexist rfl] at hins
      cases hins
      unfold Untouched
      rw [he, Manager.keep, AList.lookup_insert]
      rfl
  · exact untouched_on hon hX

theorem stream_untouched {messages : List (Bytes × List (Point F P))} {n : ℕ × ℕ}
    (hspares : s.collections.exist X = true → ∀ msg ∈ messages, msg.1 = X → msg.2 = [])
    (hstream : s.streamUpsertPoints W messages = .value (s', n)) :
    Untouched X s.collections s'.collections := by
  induction messages generalizing s n with
  | nil =>
    cases hstream
    rfl
  | cons msg messages ih =>
    obtain ⟨⟨m, r⟩, hon, hrest⟩ := Outcome.bind_eq_value.mp hstream
    obtain ⟨⟨s₁, n₁⟩, hloop, hret⟩ := Outcome.bind_eq_value.mp hrest
    cases hret
    have hfirst : Untouched X s.collections m :=
      message_untouched (fun hexist => hspares hexist msg mem_cons_self) hon
    refine hfirst.trans (ih (fun hexist msg' hmem => ?_) hloop)
    exact hspares (hfirst.exist ▸ hexist) msg' (mem_cons_of_mem _ hmem)

theorem unary_untouched {claims : TokenClaims} {rpc : Rpc F P D Q C S} {reply : Reply F P D}
    (hno : claims.canWrite X = false)
    (hrestore : ∀ id dir n r, rpc = .restoreSnapshot id → s.snapshots = some dir →
      openSnapshot dir id = .value (n, r) → X ∉ streamNames W.coding n r)
    (hreq : s.unary W (some claims) rpc = .value (s', reply)) :
    Untouched X s.collections s'.collections := by
  cases rpc with
  | createCollection config =>
    cases config with
    | none => cases hreq
    | some config =>
      simp only [Service.unary] at hreq
      split at hreq
      · cases hreq
        rfl
      · rename_i hperm
        cases hreq
        have hne : config.name ≠ X := by
          intro heq
          simp [heq, checkPermission, hno] at hperm
        rcases s.collections.create_cases W config.config with ⟨disk, made, e, -, -, heq⟩ |
          ⟨c, -, heq⟩
        · rw [heq]
          rfl
        · rw [heq]
          exact untouched_insert rfl hne
  | deleteCollection name =>
    simp only [Service.unary] at hreq
    split at hreq
    · cases hreq
      rfl
    · rename_i hperm
      cases hreq
      have hne : X ≠ name := by
        intro heq
        subst heq
        have hadmin : claims.canAdmin X = true := by simpa [checkPermission] using hperm
        rw [TokenClaims.canWrite_of_canAdmin hadmin] at hno
        cases hno
      rcases s.collections.delete_cases name with ⟨e, -, heq⟩ | ⟨-, heq⟩
      · rw [heq]
        rfl
      · rw [heq]
        unfold Untouched
        rw [AList.lookup_erase_ne hne]
  | upsertPoints collection points => exact writing_untouched hno hreq
  | deletePoints collection ids => exact writing_untouched hno hreq
  | restoreSnapshot id =>
    simp only [Service.unary] at hreq
    split at hreq
    · cases hreq
      rfl
    · rename_i dir hdir
      obtain ⟨⟨m, e⟩, hres, hret⟩ := Outcome.bind_eq_value.mp hreq
      cases hret
      unfold restoreSnapshot at hres
      split at hres
      · cases hres
      · cases hres
        rfl
      · rename_i n r hopen
        exact restoreLoop_untouched hres (hrestore id dir n r rfl hdir hopen)
  | createSnapshot now timestamp =>
    simp only [Service.unary] at hreq
    split at hreq
    · cases hreq
      rfl
    · split at hreq <;> cases hreq
      · rfl
      · rfl
  | listSnapshots =>
    simp only [Service.unary] at hreq
    split at hreq <;> cases hreq <;> rfl
  | listCollections =>
    cases hreq
    rfl
  | health =>
    cases hreq
    rfl
  | _ =>
    -- the reads
    simp only [Service.unary] at hreq
    exact reading_untouched hreq

omit [Scalar F] [Distance D] in
theorem authInterceptor_some (hA : A.authToken ≠ []) {md : Metadata} {claims : Option TokenClaims}
    (h : authInterceptor A md = .ok claims) : ∃ c, claims = some c := by
  unfold authInterceptor at h
  rw [if_neg hA] at h
  split at h
  · cases h
  · cases h
  · split at h
    · cases h
    · split at h
      · cases h
      · split at h
        · cases h
          exact ⟨_, rfl⟩
        · split at h
          · cases h
            exact ⟨_, rfl⟩
          · cases h

theorem serve_untouched (hA : A.authToken ≠ []) {call : Metadata × Call F P D Q C S}
    {reply : Reply F P D} (hpower : Powerless A X call.1) (hspares : Spares W A X s call)
    (hserve : s.serve W A call.1 call.2 = .value (s', reply)) :
    Untouched X s.collections s'.collections := by
  obtain ⟨md, call⟩ := call
  cases call with
  | unary rpc =>
    simp only [Service.serve] at hserve
    split at hserve
    · cases hserve
      rfl
    · rename_i claims hauth
      obtain ⟨c, rfl⟩ := authInterceptor_some hA hauth
      refine unary_untouched (hpower c hauth) (fun id dir n r hrpc => ?_) hserve
      subst hrpc
      exact hspares ⟨_, hauth⟩ dir n r
  | streamUpsertPoints messages =>
    obtain ⟨⟨s₁, n⟩, hstream, hret⟩ := Outcome.bind_eq_value.mp hserve
    cases hret
    exact stream_untouched hspares hstream

/-- **Calls without the right to write a collection leave it**, if they keep off the stream and the
    snapshots that have it. -/
theorem powerless_calls_keep (W : Site F P D Q C S J) (A : Auth) (hA : A.authToken ≠ [])
    (X : Bytes) (s s' : Service F P D Q C S) (calls : List (Metadata × Call F P D Q C S))
    (hpower : ∀ call ∈ calls, Powerless A X call.1)
    (hspares : Along (Service.step W A) (Spares W A X) s calls)
    (hrun : run (Service.step W A) s calls = some s') :
    Untouched X s.collections s'.collections := by
  have hself : Untouched X s.collections s.collections := rfl
  refine run_along (I := fun t => Untouched X s.collections t.collections)
    (fun t call t' hI hP hstep => ?_) hself (along_and hspares hpower) hrun
  unfold Service.step at hstep
  split at hstep
  · rename_i reply hserve
    cases hstep
    exact hI.trans (serve_untouched hA hP.2 hP.1 hserve)
  · cases hstep

end Touch

/-! ## Points on a line -/

def lineAuth : Auth where
  authToken := [115]
  validate token :=
    if token = [114] then some ⟨false, fun name => if name = [99] then some [readOnly] else none⟩
    else none

def readerMd : Metadata := some [[66, 101, 97, 114, 101, 114, 32, 114]]

def lineService : Service ℕ ℕ ℕ Unit Unit Unit where
  collections := (Manager.create lineSite (.start 10 ∅ none) lineConfig).1
  snapshots :=
    some (AList.singleton lineSnapshotID (lineStream 1 [([99], ⟨lineConfig, []⟩)]))

theorem powerless_none : Powerless lineAuth [99] none := fun claims h => by cases h

theorem powerless_reader : Powerless lineAuth [99] readerMd := by
  intro claims h
  cases h
  decide

def lineCalls : List (Metadata × Call ℕ ℕ ℕ Unit Unit Unit) :=
  [(none, .unary (.upsertPoints [99] [linePoint 1 5 none none])),
    (readerMd, .unary (.upsertPoints [99] [linePoint 1 5 none none])),
    (readerMd, .unary (.getPoints [99] [[1]] true true)),
    (none, .streamUpsertPoints [([100], [linePoint 1 5 none none])])]

theorem powerless_calls_keep_line : ∃ s',
    run (Service.step lineSite lineAuth) lineService lineCalls = some s' ∧
      Untouched [99] lineService.collections s'.collections := by
  have hpower : ∀ call ∈ lineCalls, Powerless lineAuth [99] call.1 := by
    intro call hcall
    simp only [lineCalls, mem_cons, not_mem_nil, or_false] at hcall
    rcases hcall with rfl | rfl | rfl | rfl
    · exact powerless_none
    · exact powerless_reader
    · exact powerless_reader
    · exact powerless_none
  have hspares : Along (Service.step lineSite lineAuth) (Spares lineSite lineAuth [99])
      lineService lineCalls := by
    refine ⟨trivial, fun _ _ => ⟨trivial, fun _ _ => ⟨trivial, fun _ _ => ⟨?_, fun _ _ => trivial⟩⟩⟩⟩
    intro _ msg hmsg heq
    cases mem_singleton.mp hmsg
    cases heq
  have hrun : (run (Service.step lineSite lineAuth) lineService lineCalls).isSome := by
    decide +kernel
  obtain ⟨s', hs'⟩ := Option.isSome_iff_exists.mp hrun
  exact ⟨s', hs', powerless_calls_keep lineSite lineAuth (by decide) [99] lineService s' lineCalls
    hpower hspares hs'⟩

/-- **Without a token a point is streamed to the collection, and a reader's restore takes it
    away.** -/
theorem powerless_calls_change : ∃ s₁ s₂,
    Powerless lineAuth [99] none ∧ Powerless lineAuth [99] readerMd ∧
    lineService.collections.getPoint lineSite [99] [1] = some (.error .pointNotFound) ∧
    lineService.serve lineSite lineAuth none
      (.streamUpsertPoints [([99], [linePoint 1 5 none none])]) =
      .value (s₁, .upserted true 1) ∧
    s₁.collections.getPoint lineSite [99] [1] = some (.value (linePoint 1 5 none none)) ∧
    s₁.serve lineSite lineAuth readerMd (.unary (.restoreSnapshot lineSnapshotID)) =
      .value (s₂, .status .ok) ∧
    s₂.collections.getPoint lineSite [99] [1] = some (.error .pointNotFound) := by
  refine ⟨_, _, powerless_none, powerless_reader, ?_, rfl, ?_, rfl, ?_⟩ <;> decide +kernel

end LimyeDB.Grpc
