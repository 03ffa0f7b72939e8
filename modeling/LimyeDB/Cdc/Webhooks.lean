/-
  WEBHOOK SUBSCRIPTIONS AND THEIR DELIVERY (pkg/cdc/ssrf.go, dispatcher.go) in a network that answers as it
  likes.

  The worker posts with a plain HTTP client: the host is resolved again, and redirects are followed.

  Main result: `deliveries_public`, the networks in which the check at the subscription keeps every event from
  private addresses; those with stable names and without redirects that keep the body are among them.
-/
import LimyeDB.Go.Bytes
import LimyeDB.Lib.Runs

namespace LimyeDB.Cdc

open Go
open LimyeDB.Lib.Runs

/-! ## Addresses -/

abbrev IP := Bytes

/-- The four bytes of an IPv4 address, also of one mapped into IPv6. -/
def to4 (ip : IP) : Option IP :=
  if ip.length = 4 then some ip
  else if ip.length = 16 ∧ ip.take 12 = List.replicate 10 0 ++ [0xff, 0xff] then some (ip.drop 12)
  else none

structure IPNet where
  ip   : IP
  ones : Nat

def maskByte (ones i : Nat) : UInt8 := UInt8.ofNat (256 - 2 ^ (8 - min 8 (ones - 8 * i)))

def IPNet.contains (n : IPNet) (ip : IP) : Bool :=
  let ip := (to4 ip).getD ip
  ip.length == n.ip.length &&
    (ip.zip n.ip).zipIdx.all fun x => x.1.1 &&& maskByte n.ones x.2 == x.1.2 &&& maskByte n.ones x.2

def privateRanges : List IPNet :=
  [⟨[127, 0, 0, 0], 8⟩, ⟨[10, 0, 0, 0], 8⟩, ⟨[172, 16, 0, 0], 12⟩, ⟨[192, 168, 0, 0], 16⟩,
    ⟨[169, 254, 0, 0], 16⟩, ⟨List.replicate 15 0 ++ [1], 128⟩,
    ⟨0xfc :: List.replicate 15 0, 7⟩, ⟨0xfe :: 0x80 :: List.replicate 14 0, 10⟩]

def isLoopback (ip : IP) : Bool :=
  match to4 ip with
  | some ip4 => ip4[0]? == some 127
  | none => ip == List.replicate 15 0 ++ [1]

def isLinkLocalUnicast (ip : IP) : Bool :=
  match to4 ip with
  | some ip4 => ip4[0]? == some 169 && ip4[1]? == some 254
  | none => ip.length == 16 && ip[0]? == some 0xfe && ip[1]?.map (· &&& 0xc0) == some 0x80

def isLinkLocalMulticast (ip : IP) : Bool :=
  match to4 ip with
  | some ip4 => ip4[0]? == some 224 && ip4[1]? == some 0 && ip4[2]? == some 0
  | none => ip.length == 16 && ip[0]? == some 0xff && ip[1]?.map (· &&& 0x0f) == some 0x02

def isUnspecified (ip : IP) : Bool :=
  match to4 ip with
  | some ip4 => ip4 == [0, 0, 0, 0]
  | none => ip == List.replicate 16 0

def isPrivateIP (ip : IP) : Bool :=
  privateRanges.any (·.contains ip) ||
    (isLoopback ip || isLinkLocalUnicast ip || isLinkLocalMulticast ip || isUnspecified ip)

/-! ## The network -/

structure URL where
  scheme : String
  /-- The host without its port. -/
  host   : String
  /-- Port, path and query. -/
  rest   : String
  deriving DecidableEq, Repr

/-- The functions of the standard library that read texts. -/
structure Texts where
  parse   : String → Option URL
  /-- A redirect's location, read relative to the URL that was asked. -/
  resolve : URL → String → Option URL
  parseIP : String → Option IP
  toLower : String → String

inductive Method where
  | get
  | post
  deriving DecidableEq, Repr

structure Request where
  method : Method
  url    : URL
  body   : Option Bytes
  deriving DecidableEq, Repr

structure Response where
  status   : Nat
  /-- The header `Location`, empty if there is none. -/
  location : String
  deriving DecidableEq, Repr

/-- The network at one moment: what is resolved, which addresses take a connection, and what they answer. -/
structure World where
  dns     : String → Option (List IP)
  accepts : IP → Bool
  reply   : IP → Request → Option Response

abbrev Network := Nat → World

variable (T : Texts)

def lookupIP (w : World) (host : String) : Option (List IP) :=
  match T.parseIP host with
  | some ip => some [ip]
  | none => w.dns host

def dial (w : World) (u : URL) : Option IP :=
  if (u.scheme = "http" ∨ u.scheme = "https") ∧ u.host ≠ "" then
    (lookupIP T w u.host).bind (·.find? w.accepts)
  else none

/-- A redirect of 301, 302 or 303 drops the body, one of 307 or 308 keeps it. -/
def redirected (req : Request) (resp : Response) : Option Request :=
  if resp.location = "" then none
  else if resp.status = 301 ∨ resp.status = 302 ∨ resp.status = 303 then
    (T.resolve req.url resp.location).map fun url => { method := .get, url, body := none }
  else if resp.status = 307 ∨ resp.status = 308 then
    (T.resolve req.url resp.location).map fun url => { req with url }
  else none

structure Sent where
  address : IP
  request : Request

/-- The HTTP client: at most `n` requests, the first of them at the moment `t`. -/
def send (net : Network) : Nat → Nat → Request → List Sent
  | 0, _, _ => []
  | n + 1, t, req =>
    match dial T (net t) req.url with
    | none => []
    | some ip =>
      ⟨ip, req⟩ ::
        match ((net t).reply ip req).bind (redirected T req) with
        | none => []
        | some req => send net n (t + 1) req

/-- The default policy stops after ten requests. -/
def maxRequests : Nat := 10

/-! ## The dispatcher -/

inductive Error where
  | emptyURL
  | invalidURL
  | scheme (s : String)
  | noHostname
  | localhost
  | unresolved (host : String)
  | privateIP (ip : IP)
  deriving DecidableEq, Repr

def validateSubscriptionURL (w : World) (rawURL : String) : Except Error Unit :=
  if rawURL = "" then .error .emptyURL
  else
    match T.parse rawURL with
    | none => .error .invalidURL
    | some u =>
      if T.toLower u.scheme ≠ "http" ∧ T.toLower u.scheme ≠ "https" then .error (.scheme u.scheme)
      else if u.host = "" then .error .noHostname
      else if T.toLower u.host = "localhost" ∨ T.toLower u.host = "ip6-localhost" ∨
          T.toLower u.host = "ip6-loopback" then .error .localhost
      else
        match (lookupIP T w u.host).or ((T.parseIP u.host).map ([·])) with
        | none => .error (.unresolved u.host)
        | some ips =>
          match ips.find? isPrivateIP with
          | some ip => .error (.privateIP ip)
          | none => .ok ()

structure WebhookSubscription where
  url     : String
  headers : List (String × String)
  deriving DecidableEq, Repr

/-- Events of any type; `collection` is the field of that name and `marshal` the encoding as JSON. -/
structure Events (E : Type) where
  collection : E → String
  marshal    : E → Option Bytes

/-- `sent` is what the client has sent for the events so far. -/
structure Dispatcher (E : Type) where
  subscriptions : AList fun _ : String => List WebhookSubscription
  eventCh       : List E
  moment        : Nat
  sent          : List Sent

def bufferSize : Nat := 50000

section Dispatcher

variable {E : Type} (K : Events E) (net : Network)

def newDispatcher : Dispatcher E :=
  { subscriptions := ∅, eventCh := [], moment := 0, sent := [] }

def Dispatcher.hooks (d : Dispatcher E) (collection : String) : List WebhookSubscription :=
  (d.subscriptions.lookup collection).getD []

def appendSubscription (d : Dispatcher E) (collection : String) (sub : WebhookSubscription) :
    Dispatcher E :=
  { d with subscriptions := d.subscriptions.insert collection (d.hooks collection ++ [sub]) }

def subscribe (d : Dispatcher E) (collection : String) (sub : WebhookSubscription) :
    Except Error Unit × Dispatcher E :=
  match validateSubscriptionURL T (net d.moment) sub.url with
  | .error e => (.error e, d)
  | .ok () => (.ok (), appendSubscription d collection sub)

/-- An event is dropped if the buffer is full. -/
def publish (d : Dispatcher E) (e : E) : Dispatcher E :=
  if d.eventCh.length < bufferSize then { d with eventCh := d.eventCh ++ [e] } else d

/-- What one delivery sends, from the moment `t` on. -/
def deliver (t : Nat) (body : Bytes) (sub : WebhookSubscription) : List Sent :=
  match T.parse sub.url with
  | none => []
  | some url => send T net maxRequests t { method := .post, url, body := some body }

/-- One turn of the worker. The deliveries to the hooks run side by side. -/
def work (d : Dispatcher E) : Dispatcher E :=
  match d.eventCh with
  | [] => d
  | e :: eventCh =>
    match K.marshal e with
    | none => { d with eventCh }
    | some body =>
      { d with eventCh, sent :=
        d.sent ++ (d.hooks (K.collection e)).flatMap (deliver T net d.moment body) }

inductive Op (E : Type) where
  | subscribe (collection : String) (sub : WebhookSubscription)
  | publish (e : E)
  | work
  /-- Time goes on. -/
  | wait

def step (d : Dispatcher E) : Op E → Option (Dispatcher E)
  | .subscribe collection sub => some (subscribe T net d collection sub).2
  | .publish e => some (publish d e)
  | .work => some (work T K net d)
  | .wait => some { d with moment := d.moment + 1 }

end Dispatcher

/-! ## Where the body of a delivery goes -/

section Delivery

variable {T} {net : Network}

variable (T net) in
/-- At the moment `t` the body posted to `url` is passed on to `url'`. -/
def PassesOn (t : Nat) (body : Bytes) (url url' : URL) : Prop :=
  ∃ ip resp, dial T (net t) url = some ip ∧
    (net t).reply ip { method := .post, url, body := some body } = some resp ∧
    (resp.status = 307 ∨ resp.status = 308) ∧ resp.location ≠ "" ∧
    T.resolve url resp.location = some url'

variable (T net) in
/-- From `url` at the moment `t`, so many redirects that keep the body lead to `url'`. -/
inductive Leads (body : Bytes) : Nat → URL → Nat → URL → Prop where
  | here (t : Nat) (url : URL) : Leads body t url 0 url
  | on {t : Nat} {url next url' : URL} {i : Nat} (hpass : PassesOn T net t body url next)
      (h : Leads body (t + 1) next i url') : Leads body t url (i + 1) url'

variable (T net) in
/-- **The first `n` URLs that the body goes to have public addresses only**, each at the moment it
    is asked. -/
def PublicFor (n t : Nat) (body : Bytes) (url : URL) : Prop :=
  ∀ i < n, ∀ url', Leads T net body t url i url' →
    ∀ ip, dial T (net (t + i)) url' = some ip → isPrivateIP ip = false

def CarriesPublic (l : List Sent) : Prop :=
  ∀ x ∈ l, x.request.body.isSome = true → isPrivateIP x.address = false

theorem publicFor_zero (t : Nat) (body : Bytes) (url : URL) : PublicFor T net 0 t body url := by
  intro i hi
  cases hi

theorem publicFor_succ (n t : Nat) (body : Bytes) (url : URL) : PublicFor T net (n + 1) t body url ↔
      (∀ ip, dial T (net t) url = some ip → isPrivateIP ip = false) ∧
        ∀ next, PassesOn T net t body url next → PublicFor T net n (t + 1) body next := by
  constructor
  · intro h
    refine ⟨fun ip hip => h 0 (Nat.succ_pos n) url (.here t url) ip hip, ?_⟩
    intro next hpass i hi url' hleads ip hip
    refine h (i + 1) (Nat.succ_lt_succ hi) url' (.on hpass hleads) ip ?_
    rwa [Nat.add_right_comm] at hip
  · intro h i hi url' hleads ip hip
    cases hleads with
    | here => exact h.1 ip hip
    | on hpass hleads =>
      refine h.2 _ hpass _ (Nat.lt_of_succ_lt_succ hi) url' hleads ip ?_
      rwa [Nat.add_right_comm]

theorem carriesPublic_cons (x : Sent) (l : List Sent) : CarriesPublic (x :: l) ↔
      (x.request.body.isSome = true → isPrivateIP x.address = false) ∧ CarriesPublic l := by
  simp [CarriesPublic]

def Response.Keeps (resp : Response) : Prop :=
  (resp.status = 307 ∨ resp.status = 308) ∧ resp.location ≠ ""

theorem redirected_keeps {req : Request} {resp : Response} (h : resp.Keeps) :
    redirected T req resp = (T.resolve req.url resp.location).map fun url => { req with url } := by
  unfold redirected
  rw [if_neg h.2, if_neg (by rcases h.1 with h | h <;> omega), if_pos h.1]

theorem redirected_drops {req req' : Request} {resp : Response} (h : ¬ resp.Keeps)
    (hreq : redirected T req resp = some req') : req'.body = none := by
  unfold redirected at hreq
  split at hreq
  case isTrue => cases hreq
  case isFalse hlocation =>
    split at hreq
    case isTrue =>
      obtain ⟨url, -, rfl⟩ := Option.map_eq_some_iff.mp hreq
      rfl
    case isFalse =>
      rw [if_neg fun hstatus => h ⟨hstatus, hlocation⟩] at hreq
      cases hreq

theorem send_bodyless (n t : Nat) {req : Request} (hbody : req.body = none) :
    ∀ x ∈ send T net n t req, x.request.body = none := by
  induction n generalizing t req with
  | zero =>
    intro x hx
    cases hx
  | succ n ih =>
    intro x hx
    unfold send at hx
    split at hx
    · cases hx
    · rcases List.mem_cons.mp hx with rfl | hx
      · exact hbody
      · split at hx
        · cases hx
        · rename_i req' hnext
          refine ih (t + 1) ?_ x hx
          obtain ⟨resp, -, hresp⟩ := Option.bind_eq_some_iff.mp hnext
          by_cases hkeeps : resp.Keeps
          · rw [redirected_keeps hkeeps] at hresp
            obtain ⟨url, -, rfl⟩ := Option.map_eq_some_iff.mp hresp
            exact hbody
          · exact redirected_drops hkeeps hresp

theorem passesOn_iff {t : Nat} {body : Bytes} {url next : URL} {ip : IP} {resp : Response}
    (hdial : dial T (net t) url = some ip)
    (hreply : (net t).reply ip { method := .post, url, body := some body } = some resp) :
    PassesOn T net t body url next ↔ resp.Keeps ∧ T.resolve url resp.location = some next := by
  constructor
  · intro hpass
    obtain ⟨ip', resp', hdial', hreply', hstatus, hlocation, hresolve⟩ := hpass
    rw [hdial] at hdial'
    cases hdial'
    rw [hreply] at hreply'
    cases hreply'
    exact ⟨⟨hstatus, hlocation⟩, hresolve⟩
  · intro h
    exact ⟨ip, resp, hdial, hreply, h.1.1, h.1.2, h.2⟩

/-- The client sends the body to public addresses exactly if the URLs it goes to have no others. -/
theorem send_public (n t : Nat) (body : Bytes) (url : URL) :
    CarriesPublic (send T net n t { method := .post, url, body := some body }) ↔
      PublicFor T net n t body url := by
  induction n generalizing t url with
  | zero => simp [send, CarriesPublic, publicFor_zero]
  | succ n ih =>
    rw [publicFor_succ, send]
    cases hdial : dial T (net t) url with
    | none =>
      have hstop : ∀ next, ¬ PassesOn T net t body url next := by
        rintro next ⟨ip, resp, hdial', -⟩
        rw [hdial] at hdial'
        cases hdial'
      simp [CarriesPublic, hstop]
    | some ip =>
      rw [carriesPublic_cons]
      refine and_congr (by simp) ?_
      cases hreply : (net t).reply ip { method := .post, url, body := some body } with
      | none =>
        have hstop : ∀ next, ¬ PassesOn T net t body url next := by
          rintro next ⟨ip', resp, hdial', hreply', -⟩
          rw [hdial] at hdial'
          cases hdial'
          rw [hreply] at hreply'
          cases hreply'
        simp [CarriesPublic, hstop]
      | some resp =>
        simp only [passesOn_iff hdial hreply, Option.bind_some]
        by_cases hkeeps : resp.Keeps
        · rw [redirected_keeps hkeeps]
          cases hresolve : T.resolve url resp.location with
          | none => simp [CarriesPublic]
          | some next =>
            simp only [Option.map_some, hkeeps, true_and, Option.some.injEq, forall_eq']
            exact ih (t + 1) next
        · refine iff_of_true ?_ (fun next hpass => absurd hpass.1 hkeeps)
          split
          · intro x hx
            cases hx
          · rename_i req' hnext
            intro x hx hbody
            rw [send_bodyless n (t + 1) (redirected_drops hkeeps hnext) x hx] at hbody
            cases hbody

end Delivery

/-! ## What the check at the subscription is good for -/

section Checked

variable {T} {E : Type} {K : Events E} {net : Network}

theorem validate_public {w : World} {raw : String} {url : URL} (h : validateSubscriptionURL T w raw = .ok ())
    (hparse : T.parse raw = some url) : ∀ ip ∈ (lookupIP T w url.host).getD [], isPrivateIP ip = false := by
  unfold validateSubscriptionURL at h
  split at h
  · cases h
  · rw [hparse] at h
    dsimp only at h
    split_ifs at h
    cases hips : lookupIP T w url.host with
    | none => exact fun ip hip => absurd hip (List.not_mem_nil)
    | some ips =>
      rw [hips, Option.some_or] at h
      dsimp only at h
      split at h
      · cases h
      · rename_i hnone
        exact fun ip hip => Bool.eq_false_iff.mpr (List.find?_eq_none.mp hnone ip hip)

variable (T K net) in
/-- The text is a URL that the check accepts at the moment `s`, and the event has a body. -/
structure Accepted (s : Nat) (raw : String) (url : URL) (e : E) (body : Bytes) : Prop where
  parse : T.parse raw = some url
  check : validateSubscriptionURL T (net s) raw = .ok ()
  marshal : K.marshal e = some body

variable (T K net) in
/-- **What was accepted is later dialled at no private address that it did not have when it was checked.** -/
def KeepsAddress : Prop :=
  ∀ s t raw url e body, Accepted T K net s raw url e body → s ≤ t → ∀ ip, dial T (net t) url = some ip →
    ip ∈ (lookupIP T (net s) url.host).getD [] ∨ isPrivateIP ip = false

variable (T K net) in
/-- **Where the body is passed on from what was accepted, it comes to no private address**, within the requests
    that are left. -/
def PassesPublic : Prop :=
  ∀ s t raw url e body, Accepted T K net s raw url e body → s ≤ t → ∀ next, PassesOn T net t body url next →
    PublicFor T net (maxRequests - 1) (t + 1) body next

/-- Each half of the condition is what one request needs; the addresses that the check saw are public. -/
theorem publicFor_iff : KeepsAddress T K net ∧ PassesPublic T K net ↔
    ∀ s t raw url e body, Accepted T K net s raw url e body → s ≤ t →
      PublicFor T net maxRequests t body url := by
  constructor
  · rintro ⟨hkeep, hpass⟩ s t raw url e body h hle
    refine (publicFor_succ (maxRequests - 1) t body url).mpr ⟨fun ip hip => ?_, hpass s t raw url e body h hle⟩
    rcases hkeep s t raw url e body h hle ip hip with hold | hpublic
    · exact validate_public h.check h.parse ip hold
    · exact hpublic
  · intro hall
    have hsplit := fun s t raw url e body h hle =>
      (publicFor_succ (maxRequests - 1) t body url).mp (hall s t raw url e body h hle)
    exact ⟨fun s t raw url e body h hle ip hip => .inr ((hsplit s t raw url e body h hle).1 ip hip),
      fun s t raw url e body h hle => (hsplit s t raw url e body h hle).2⟩

end Checked

/-! ## Every run -/

section Runs

variable {T} {E : Type} {K : Events E} {net : Network}

theorem deliver_public (t : Nat) (body : Bytes) (sub : WebhookSubscription) :
    CarriesPublic (deliver T net t body sub) ↔
      ∀ url, T.parse sub.url = some url → PublicFor T net maxRequests t body url := by
  unfold deliver
  cases hparse : T.parse sub.url with
  | none => simp [CarriesPublic]
  | some url => simp [send_public]

variable (T net) in
/-- Every hook was accepted at some moment, and nothing has gone to a private address. -/
structure Checked (d : Dispatcher E) : Prop where
  sent : CarriesPublic d.sent
  hooks : ∀ c, ∀ sub ∈ d.hooks c, ∃ s ≤ d.moment, validateSubscriptionURL T (net s) sub.url = .ok ()

theorem Checked.subscribe {d : Dispatcher E} (h : Checked T net d) (c : String) (sub : WebhookSubscription) :
    Checked T net (subscribe T net d c sub).2 := by
  unfold Cdc.subscribe
  split
  · exact h
  · rename_i hok
    refine ⟨h.sent, fun c' sub' hsub => ?_⟩
    by_cases hc : c' = c
    · subst hc
      simp only [Dispatcher.hooks, appendSubscription, AList.lookup_insert, Option.getD_some,
        List.mem_append, List.mem_singleton] at hsub
      rcases hsub with hsub | rfl
      · exact h.hooks c' sub' hsub
      · exact ⟨d.moment, le_rfl, hok⟩
    · refine h.hooks c' sub' ?_
      rwa [Dispatcher.hooks, appendSubscription, AList.lookup_insert_ne hc] at hsub

theorem Checked.work {d : Dispatcher E} (h : Checked T net d)
    (hsafe : ∀ s t raw url e body, Accepted T K net s raw url e body → s ≤ t →
      PublicFor T net maxRequests t body url) : Checked T net (work T K net d) := by
  unfold Cdc.work
  split
  · exact h
  · rename_i e eventCh hch
    split
    · exact ⟨h.sent, h.hooks⟩
    · rename_i body hmarshal
      refine ⟨fun x hx => ?_, h.hooks⟩
      rcases List.mem_append.mp hx with hx | hx
      · exact h.sent x hx
      · obtain ⟨sub, hsub, hx⟩ := List.mem_flatMap.mp hx
        obtain ⟨s, hle, hok⟩ := h.hooks _ sub hsub
        exact (deliver_public d.moment body sub).mpr
          (fun url hparse => hsafe s d.moment sub.url url e body ⟨hparse, hok, hmarshal⟩ hle) x hx

theorem Checked.step {d d' : Dispatcher E} {op : Op E} (h : Checked T net d)
    (hsafe : ∀ s t raw url e body, Accepted T K net s raw url e body → s ≤ t →
      PublicFor T net maxRequests t body url) (hstep : step T K net d op = some d') : Checked T net d' := by
  cases op with
  | subscribe c sub =>
    cases hstep
    exact h.subscribe c sub
  | publish e =>
    cases hstep
    unfold publish
    split
    · exact ⟨h.sent, h.hooks⟩
    · exact h
  | work =>
    cases hstep
    exact h.work hsafe
  | wait =>
    cases hstep
    refine ⟨h.sent, fun c sub hsub => ?_⟩
    obtain ⟨s, hle, hok⟩ := h.hooks c sub hsub
    exact ⟨s, Nat.le_succ_of_le hle, hok⟩

theorem run_wait (d : Dispatcher E) (n : Nat) :
    run (step T K net) d (List.replicate n .wait) = some { d with moment := d.moment + n } := by
  induction n generalizing d with
  | zero => rfl
  | succ n ih =>
    rw [List.replicate_succ]
    refine run_cons.mpr ⟨_, rfl, (ih _).trans ?_⟩
    simp only [Nat.add_assoc, Nat.add_comm 1]

/-- A hook is subscribed at the moment `s`, and an event is delivered to it at the moment `t`. -/
theorem exists_delivery {s t : Nat} {raw : String} {url : URL} {e : E} {body : Bytes}
    (h : Accepted T K net s raw url e body) (hle : s ≤ t) :
    ∃ ops d, run (step T K net) newDispatcher ops = some d ∧
      d.sent = deliver T net t body ⟨raw, []⟩ := by
  obtain ⟨d₀, hd₀⟩ : ∃ d₀ : Dispatcher E, d₀ = { newDispatcher with moment := s } := ⟨_, rfl⟩
  have hstart : run (step T K net) newDispatcher (List.replicate s .wait) = some d₀ := by
    rw [hd₀, run_wait]
    simp [newDispatcher]
  have hsub : (subscribe T net d₀ (K.collection e) ⟨raw, []⟩).2 =
      appendSubscription d₀ (K.collection e) ⟨raw, []⟩ := by
    rw [subscribe, show validateSubscriptionURL T (net d₀.moment) raw = .ok () from hd₀ ▸ h.check]
  set d₁ := appendSubscription d₀ (K.collection e) ⟨raw, []⟩ with hd₁
  have hpub : publish d₁ e = { d₁ with eventCh := [e] } := by
    rw [hd₁, hd₀]
    rfl
  have hwait : run (step T K net) { d₁ with eventCh := [e] } (List.replicate (t - s) .wait) =
      some { d₁ with eventCh := [e], moment := t } := by
    rw [run_wait, show d₁.moment + (t - s) = t by rw [hd₁, hd₀]; exact Nat.add_sub_cancel' hle]
  refine ⟨List.replicate s .wait ++ (.subscribe (K.collection e) ⟨raw, []⟩ :: .publish e ::
    (List.replicate (t - s) .wait ++ [.work])), work T K net { d₁ with eventCh := [e], moment := t }, ?_, ?_⟩
  · refine run_append.mpr ⟨d₀, hstart, run_cons.mpr ⟨_, congrArg some hsub, run_cons.mpr ⟨_, congrArg some hpub, ?_⟩⟩⟩
    exact run_append.mpr ⟨_, hwait, rfl⟩
  · have hhooks : Dispatcher.hooks { d₁ with eventCh := [e], moment := t } (K.collection e) = [⟨raw, []⟩] := by
      rw [hd₁, hd₀, Dispatcher.hooks, appendSubscription, AList.lookup_insert]
      rfl
    simp only [work, h.marshal, hhooks]
    rw [hd₁, hd₀]
    exact (List.nil_append _).trans (List.flatMap_singleton ..)

end Runs

/-- **In which networks no event goes to a private address, whatever the run**: what was accepted keeps its
    addresses as far as the private ones go, and the body is passed on to none. In particular where a name is
    always answered alike and no answer is a 307 or 308. -/
theorem deliveries_public {E : Type} (T : Texts) (K : Events E) (net : Network) :
    ((∀ ops d, run (step T K net) newDispatcher ops = some d → CarriesPublic d.sent) ↔
      KeepsAddress T K net ∧ PassesPublic T K net) ∧
    ((∀ t, (net t).dns = (net 0).dns) →
      (∀ t ip req resp, (net t).reply ip req = some resp → resp.status ≠ 307 ∧ resp.status ≠ 308) →
      ∀ ops d, run (step T K net) newDispatcher ops = some d → CarriesPublic d.sent) := by
  have hiff : (∀ ops d, run (step T K net) newDispatcher ops = some d → CarriesPublic d.sent) ↔
      KeepsAddress T K net ∧ PassesPublic T K net := by
    rw [publicFor_iff]
    constructor
    · intro hall s t raw url e body h hle
      obtain ⟨ops, d, hrun, hsent⟩ := exists_delivery h hle
      have hpublic := hall ops d hrun
      rw [hsent] at hpublic
      exact (deliver_public t body ⟨raw, []⟩).mp hpublic url h.parse
    · intro hsafe ops d hrun
      have hnew : Checked T net (newDispatcher : Dispatcher E) := ⟨nofun, fun c sub hsub => nomatch hsub⟩
      exact (run_induct (fun _ _ _ h hstep => h.step hsafe hstep) hnew hrun).sent
  refine ⟨hiff, fun hdns hreply => hiff.mpr ⟨?_, ?_⟩⟩
  · intro s t raw url e body _ _ ip hip
    have hsame : lookupIP T (net s) url.host = lookupIP T (net t) url.host := by
      unfold lookupIP
      rw [hdns s, hdns t]
    unfold dial at hip
    split_ifs at hip
    obtain ⟨ips, hips, hfind⟩ := Option.bind_eq_some_iff.mp hip
    rw [hsame, hips]
    exact .inl (List.mem_of_find?_eq_some hfind)
  · rintro s t raw url e body _ _ next ⟨ip, resp, -, hresp, hstatus, -⟩
    have hnot := hreply t ip _ resp hresp
    omega

/-! ### A name that changes, and a redirect -/

def lineTexts : Texts where
  parse s := if s = "http://hook.example/" then some ⟨"http", "hook.example", "/"⟩ else none
  resolve _ s := if s = "http://10.0.0.5/" then some ⟨"http", "10.0.0.5", "/"⟩ else none
  parseIP s := if s = "10.0.0.5" then some [10, 0, 0, 5] else none
  toLower s := s

/-- The host's address is public at first and `later` afterwards; it answers with `resp`. -/
def lineNetwork (later : IP) (resp : Response) : Network := fun t =>
  { dns := fun _ => some [if t = 0 then [93, 184, 216, 34] else later]
    accepts := fun _ => true
    reply := fun _ _ => some resp }

def lineEvents : Events String := ⟨id, fun _ => some [1, 2, 3]⟩

/-- The host keeps its address and answers 200: the event is posted to it. -/
theorem deliveries_public_line : ∃ d, run (step lineTexts lineEvents (lineNetwork [93, 184, 216, 34] ⟨200, ""⟩))
    newDispatcher [.subscribe "c" ⟨"http://hook.example/", []⟩, .wait, .publish "c", .work] = some d ∧
      d.sent.map Sent.address = [[93, 184, 216, 34]] ∧ CarriesPublic d.sent := by
  have hpublic := (deliveries_public lineTexts lineEvents (lineNetwork [93, 184, 216, 34] ⟨200, ""⟩)).2
    (fun t => by simp [lineNetwork]) (fun t ip req resp hresp => by cases hresp; decide)
    [.subscribe "c" ⟨"http://hook.example/", []⟩, .wait, .publish "c", .work]
  exact ⟨_, rfl, by decide +kernel, hpublic _ rfl⟩

/-- **An event is posted to 127.0.0.1**, once the name has changed its address; **or to 10.0.0.5**, where the
    public host redirects with 307. -/
theorem delivered_to_private :
    (∃ d, run (step lineTexts lineEvents (lineNetwork [127, 0, 0, 1] ⟨200, ""⟩)) newDispatcher
        [.subscribe "c" ⟨"http://hook.example/", []⟩, .wait, .publish "c", .work] = some d ∧
      d.sent.map (fun x => (x.address, x.request.body)) = [([127, 0, 0, 1], some [1, 2, 3])] ∧
      isPrivateIP [127, 0, 0, 1] = true) ∧
    ∃ d, run (step lineTexts lineEvents
        (lineNetwork [93, 184, 216, 34] ⟨307, "http://10.0.0.5/"⟩)) newDispatcher
        [.subscribe "c" ⟨"http://hook.example/", []⟩, .publish "c", .work] = some d ∧
      ([10, 0, 0, 5], some [1, 2, 3]) ∈ d.sent.map (fun x => (x.address, x.request.body)) ∧
      isPrivateIP [10, 0, 0, 5] = true := by
  refine ⟨⟨_, rfl, ?_, ?_⟩, ⟨_, rfl, ?_, ?_⟩⟩ <;> decide +kernel

end LimyeDB.Cdc
