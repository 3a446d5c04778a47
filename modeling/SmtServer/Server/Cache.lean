import SmtServer.Lib.Memo
import SmtServer.Server.Dispatch

/-!
# `cache.rs` — responses that are used again

The cache maps request payloads, with the four bytes of the request id blanked, to whole response
payloads. A stored response carries the id of the request that produced it; a hit patches in the
id of the request at hand. When the table is full it is emptied.

`dispatch_payload_with_cache` is `Lib.Memo` with the cache as its table. Transparency then rests
on one fact about the binary route, `dispatchPayload_rebind`: two requests that differ in their
id only get responses that differ in their id only, provided the response is a verdict.

The hash map is an association list whose keys are distinct; the counters wrap.
-/

namespace SmtServer
namespace Server

open Lib Outcome Wire

def defaultMaxCacheEntries : Nat := 4096
def defaultMaxCacheKeyBytes : Nat := 1024 * 1024
def defaultMaxCachedResponseBytes : Nat := 16 * 1024 * 1024

structure CacheStats where
  hits : UInt64
  misses : UInt64
  inserts : UInt64
  deriving Repr, DecidableEq

structure ResponseCache where
  entries : List (List UInt8 × List UInt8)
  stats : CacheStats
  maxEntries : Nat
  maxKeyBytes : Nat
  maxResponseBytes : Nat
  deriving Repr, DecidableEq

namespace ResponseCache

def withLimits (maxEntries maxKeyBytes maxResponseBytes : Nat) : ResponseCache :=
  ⟨[], ⟨0, 0, 0⟩, maxEntries, maxKeyBytes, maxResponseBytes⟩

def new : ResponseCache :=
  withLimits defaultMaxCacheEntries defaultMaxCacheKeyBytes defaultMaxCachedResponseBytes

def acceptsPayload (self : ResponseCache) (payload : List UInt8) : Bool :=
  decide (self.maxEntries ≠ 0 ∧ payload.length ≤ self.maxKeyBytes)

def lookup (self : ResponseCache) (key : List UInt8) : Option (List UInt8) × ResponseCache :=
  match self.entries.lookup key with
  | some found =>
    (some found, { self with stats := { self.stats with hits := self.stats.hits + 1 } })
  | none => (none, { self with stats := { self.stats with misses := self.stats.misses + 1 } })

/-- `HashMap::insert` replaces the value of a key it holds. -/
def insertEntry (entries : List (List UInt8 × List UInt8)) (key response : List UInt8) :
    List (List UInt8 × List UInt8) :=
  (key, response) :: entries.filter (·.1 ≠ key)

def insert (self : ResponseCache) (key response : List UInt8) : ResponseCache :=
  if self.maxEntries = 0 ∨ self.maxKeyBytes < key.length ∨
      self.maxResponseBytes < response.length then self
  else
    let entries := if self.maxEntries ≤ self.entries.length then [] else self.entries
    { self with
      entries := insertEntry entries key response
      stats := { self.stats with inserts := self.stats.inserts + 1 } }

end ResponseCache

/-- The payload with its request id blanked. -/
def cacheKeyForPayload (payload : List UInt8) : List UInt8 :=
  if isBinaryRequestPayload payload ∧ 8 ≤ payload.length then
    payload.take 4 ++ List.replicate 4 0 ++ payload.drop 8
  else payload

def binaryRequestId (payload : List UInt8) : Option UInt32 :=
  if isBinaryRequestPayload payload ∧ 8 ≤ payload.length then some (u32At payload 4) else none

def rebindCachedResponse (response : List UInt8) (requestId : Option UInt32) : List UInt8 :=
  match requestId with
  | some id =>
    if 8 ≤ response.length ∧ response.take 4 = responseMagic then
      response.take 4 ++ u32Bytes id ++ response.drop 8
    else response
  | none => response

/-- `dispatch_payload_with_cache`: the cache is consulted for binary payloads it accepts, and
only verdicts are put into it. -/
def dispatchPayloadWithCache (text : TextRoute) (backend : Backend) :
    Memo (Option ResponseCache) (List UInt8) (List UInt8) (List UInt8) (Result (List UInt8)) where
  accepts cache payload :=
    match cache with
    | some cache => isBinaryRequestPayload payload && cache.acceptsPayload payload
    | none => false
  key := cacheKeyForPayload
  look cache key :=
    match cache with
    | some cache => ((cache.lookup key).1, some (cache.lookup key).2)
    | none => (none, none)
  put cache key response := cache.map fun cache => cache.insert key response
  compute payload := dispatchPayload text payload backend
  store response :=
    match response with
    | .ok bytes => if isCacheableBinaryResponse bytes then some bytes else none
    | _ => none
  adapt payload response := ok (rebindCachedResponse response (binaryRequestId payload))

/-! ## Requests that differ in their id -/

/-- The request under another id. -/
def withId (id : UInt32) (request : BinaryRequest) : BinaryRequest :=
  { request with envelope := { request.envelope with requestId := id } }

variable {request : BinaryRequest} {result : QueryResult} {id : UInt32}

theorem validate_withId : (withId id request).validate = request.validate := rfl

theorem plan_withId : plan (withId id request) result = plan request result := rfl

theorem check_withId (a : Artifact) : a.check (withId id request) = a.check request := by
  cases a <;> rfl

/-- What stands behind the id in a request payload. -/
def requestTail (request : BinaryRequest) : List UInt8 := (framed request).drop 8

theorem framed_eq (request : BinaryRequest) : framed request =
    requestMagic ++ u32Bytes request.envelope.requestId ++ requestTail request := by
  have h : (framed request).take 8 = requestMagic ++ u32Bytes request.envelope.requestId := by
    simp only [framed, RequestEnvelope.bytes, List.append_assoc]
    rw [← List.append_assoc, List.take_left']
    simp [requestMagic]
  rw [requestTail, ← h, List.take_append_drop]

theorem requestTail_withId : requestTail (withId id request) = requestTail request := by
  have h : ∀ r : BinaryRequest, requestTail r = ([r.envelope.command.toByte] ++ [r.envelope.flags] ++
      u32Bytes r.envelope.budgetMs ++ u32Bytes r.envelope.exprLen ++
      u16Bytes r.envelope.assertionCount ++ u16Bytes r.envelope.namedCount ++
      u16Bytes r.envelope.assumptionCount ++ u32Bytes r.envelope.targetNode ++ u32Bytes 0) ++
      r.body := by
    intro r
    simp only [requestTail, framed, RequestEnvelope.bytes, List.append_assoc]
    rw [← List.append_assoc, List.drop_left']
    simp [requestMagic]
  rw [h, h]
  rfl

theorem isBinaryRequestPayload_iff {payload : List UInt8} : isBinaryRequestPayload payload = true ↔
    4 ≤ payload.length ∧ payload.take 4 = requestMagic := by
  simp [isBinaryRequestPayload]

/-- A payload with the same key as a request's is that request under another id. -/
theorem framed_of_key {payload : List UInt8} (hbin : isBinaryRequestPayload payload = true)
    (hkey : cacheKeyForPayload (framed request) = cacheKeyForPayload payload) :
    ∃ id, binaryRequestId payload = some id ∧ payload = framed (withId id request) := by
  obtain ⟨-, hmagic⟩ := isBinaryRequestPayload_iff.mp hbin
  have hlong : 8 ≤ (framed request).length := by
    rw [framed_eq]
    simp [requestMagic]
  have hframed : isBinaryRequestPayload (framed request) = true := by
    refine isBinaryRequestPayload_iff.mpr ⟨by omega, ?_⟩
    rw [framed_eq, List.append_assoc]
    exact List.take_left' rfl
  have hkey' : cacheKeyForPayload (framed request) =
      requestMagic ++ List.replicate 4 0 ++ requestTail request := by
    rw [cacheKeyForPayload, if_pos ⟨hframed, hlong⟩, (isBinaryRequestPayload_iff.mp hframed).2]
    rfl
  rw [hkey'] at hkey
  by_cases hlen : 8 ≤ payload.length
  · rw [cacheKeyForPayload, if_pos ⟨hbin, hlen⟩, hmagic] at hkey
    have htail : requestTail request = payload.drop 8 := List.append_cancel_left hkey
    refine ⟨u32At payload 4, by rw [binaryRequestId, if_pos ⟨hbin, hlen⟩], ?_⟩
    have hid : u32Bytes (u32At payload 4) = (payload.drop 4).take 4 := by
      have hs : Stands payload 4 (u32Bytes (u32At payload 4)) := stands_u32At (by omega)
      have := hs.2
      rw [length_u32Bytes] at this
      exact this.symm
    rw [framed_eq, requestTail_withId, htail]
    show payload = requestMagic ++ u32Bytes (u32At payload 4) ++ payload.drop 8
    rw [hid, ← hmagic, ← List.take_add, List.take_append_drop]
  · -- a shorter payload is its own key, and too short to be this one
    rw [cacheKeyForPayload, if_neg (fun h => hlen h.2)] at hkey
    have := congrArg List.length hkey
    simp [requestMagic] at this
    omega

/-! ## Responses that differ in their id -/

/-- What stands behind the id in a response payload. -/
def responseTail (status : Status) (flags : UInt8) (payload : List UInt8) : List UInt8 :=
  [status.toByte] ++ [flags] ++ u32Bytes (UInt32.ofNat payload.length) ++ u16Bytes 0 ++ payload

theorem encode_mk' {status : Status} {flags : UInt8} {payload bytes : List UInt8}
    (h : (BinaryResponse.mk' id status flags payload).encode = ok bytes) :
    bytes = responseMagic ++ u32Bytes id ++ responseTail status flags payload := by
  simp only [BinaryResponse.encode, ResponseEnvelope.encode, bind_eq_ok, pure_eq,
    Outcome.ok.injEq] at h
  obtain ⟨_, -, _, -, _, ⟨_, -, rfl⟩, rfl⟩ := h
  simp only [BinaryResponse.mk', ResponseEnvelope.bytes, responseTail, List.append_assoc]

theorem rebind_response {id' : UInt32} (tail : List UInt8) :
    rebindCachedResponse (responseMagic ++ u32Bytes id ++ tail) (some id') =
      responseMagic ++ u32Bytes id' ++ tail := by
  have hlen : (responseMagic ++ u32Bytes id).length = 8 := by simp [responseMagic]
  have htake : (responseMagic ++ u32Bytes id ++ tail).take 4 = responseMagic := by
    rw [List.append_assoc]
    exact List.take_left' rfl
  have hdrop : (responseMagic ++ u32Bytes id ++ tail).drop 8 = tail := List.drop_left' hlen
  have hlong : 8 ≤ (responseMagic ++ u32Bytes id ++ tail).length := by
    rw [List.length_append, hlen]
    omega
  simp only [rebindCachedResponse, hlong, htake, hdrop, and_self, if_true]

/-- A response that may be kept. -/
def Verdict (response : List UInt8) : Prop :=
  ∃ r, BinaryResponse.parse response = ok r ∧ (r.envelope.status = .sat ∨
    r.envelope.status = .unsat ∨ r.envelope.status = .simplified)

theorem isCacheableBinaryResponse_iff {response : List UInt8} :
    isCacheableBinaryResponse response = true ↔ Verdict response := by
  unfold isCacheableBinaryResponse Verdict
  cases BinaryResponse.parse response <;> simp

/-- Nothing the outermost layer answers is a verdict. -/
theorem not_verdict_binaryErrorResponse {message : String} {v : List UInt8}
    (h : binaryErrorResponse message = ok v) : ¬ Verdict v := by
  obtain ⟨b, r, hb, hparse, -, hst⟩ := binaryErrorResponse_spec message
  rw [hb] at h
  cases h
  rintro ⟨r', hr', hst'⟩
  rw [hparse] at hr'
  cases hr'
  rcases hst with hst | hst <;> simp [hst] at hst'

/-- A verdict comes from a request that was parsed, and from a block that was sent. -/
theorem verdict_of_dispatchPayload {text : TextRoute} {backend : Backend}
    {payload v : List UInt8} (hbin : isBinaryRequestPayload payload = true)
    (h : dispatchPayload text payload backend = ok v) (hv : Verdict v) :
    ∃ request result status a b, payload = framed request ∧
      BinaryRequest.parse payload = ok request ∧ backend.handle request = ok result ∧
      plan request result = .send status a ∧ a.check request = ok () ∧ a.encode = ok b ∧
      b.length < 2 ^ 32 ∧
      v = responseMagic ++ u32Bytes request.envelope.requestId ++ responseTail status a.flags b := by
  have hv' := hv
  obtain ⟨r, hparse, hst⟩ := hv
  have henc := BinaryResponse.parse_eq_ok_iff.mp hparse
  -- the response that was encoded is the one that is parsed
  have hframe : Protocol.handleBinaryFrame payload backend = ok r := by
    unfold dispatchPayload at h
    rw [if_pos hbin] at h
    cases hh : Protocol.handleBinaryFrame payload backend with
    | panic =>
      rw [hh] at h
      cases h
    | err e =>
      rw [hh, err_bind, orElse] at h
      exact absurd hv' (not_verdict_binaryErrorResponse h)
    | ok r' =>
      rw [hh, ok_bind] at h
      cases he : r'.encode with
      | panic =>
        rw [he] at h
        cases h
      | err e =>
        rw [he, orElse] at h
        exact absurd hv' (not_verdict_binaryErrorResponse h)
      | ok b =>
        rw [he, orElse] at h
        cases h
        rw [BinaryResponse.parse_eq_ok_iff.mpr he] at hparse
        exact hparse
  have herror : ∀ id message, BinaryResponse.error id message ≠ ok r := by
    intro id message he
    obtain ⟨-, rfl⟩ := BinaryResponse.error_eq_ok.mp he
    simp [BinaryResponse.mk'] at hst
  simp only [Protocol.handleBinaryFrame, hbin, if_true] at hframe
  cases hreq : BinaryRequest.parse payload with
  | panic =>
    rw [hreq] at hframe
    cases hframe
  | err e =>
    rw [hreq] at hframe
    exact absurd hframe (herror _ _)
  | ok request =>
    simp only [hreq] at hframe
    unfold Protocol.handleBinaryRequest at hframe
    cases hres : backend.handle request with
    | panic =>
      rw [hres] at hframe
      cases hframe
    | err e =>
      rw [hres] at hframe
      exact absurd hframe (herror _ _)
    | ok result =>
      simp only [hres] at hframe
      have hpay : payload = framed request :=
        (BinaryRequest.encode_eq_ok.mp (BinaryRequest.parse_eq_ok_iff.mp hreq)).2.2
      rcases response_cases hframe with ⟨status, a, b, hp, hc, hb, hlt, rfl⟩ | h | h
      · exact ⟨request, result, status, a, b, hpay, rfl, hres, hp, hc, hb, hlt,
          encode_mk' henc⟩
      · simp [h] at hst
      · simp [h] at hst

/-- Under another id, the same verdict under that id. -/
theorem dispatchPayload_rebind {text : TextRoute} {backend : Backend}
    (hid : ∀ id request, backend.handle (withId id request) = backend.handle request)
    {payload payload' v : List UInt8} (hbin : isBinaryRequestPayload payload = true)
    (hbin' : isBinaryRequestPayload payload' = true)
    (hkey : cacheKeyForPayload payload' = cacheKeyForPayload payload)
    (h : dispatchPayload text payload' backend = ok v) (hv : Verdict v) :
    dispatchPayload text payload backend =
      ok (rebindCachedResponse v (binaryRequestId payload)) := by
  obtain ⟨request, result, status, a, b, rfl, hparse, hres, hp, hc, hb, hlt, rfl⟩ :=
    verdict_of_dispatchPayload hbin' h hv
  obtain ⟨id, hbid, rfl⟩ := framed_of_key hbin hkey
  rw [hbid, rebind_response]
  obtain ⟨hvalid, hflags, -⟩ :=
    BinaryRequest.encode_eq_ok.mp (BinaryRequest.parse_eq_ok_iff.mp hparse)
  have hparse' : BinaryRequest.parse (framed (withId id request)) = ok (withId id request) :=
    parse_framed (validate_withId.trans hvalid) hflags
  have hresponse : Protocol.handleBinaryRequest (withId id request) backend =
      ok (.mk' id status a.flags b) := by
    unfold Protocol.handleBinaryRequest
    rw [hid, hres]
    show Protocol.responseFromQueryResult (withId id request) result = _
    exact response_of_plan (plan_withId.trans hp) ((check_withId a).trans hc) hb hlt
  obtain ⟨-, bytes, henc, -⟩ := (sendable_handleBinaryRequest hresponse).parse
  rw [dispatchPayload_of_parse text hparse', hresponse, ok_bind, henc, orElse, encode_mk' henc]

/-! ## The table -/

section Table

variable (text : TextRoute) (backend : Backend)

/-- An entry is the answer to some binary request with its key. -/
def SoundEntry (key response : List UInt8) : Prop :=
  ∃ payload, isBinaryRequestPayload payload = true ∧ cacheKeyForPayload payload = key ∧
    dispatchPayload text payload backend = ok response ∧ Verdict response

/-- A cache that started empty with the limits of `start`. -/
structure CacheInv (start cache : ResponseCache) : Prop where
  maxEntries : cache.maxEntries = start.maxEntries
  maxKeyBytes : cache.maxKeyBytes = start.maxKeyBytes
  maxResponseBytes : cache.maxResponseBytes = start.maxResponseBytes
  nodup : (cache.entries.map Prod.fst).Nodup
  count : cache.entries.length ≤ cache.maxEntries
  entry : ∀ e ∈ cache.entries, e.1.length ≤ cache.maxKeyBytes ∧
    e.2.length ≤ cache.maxResponseBytes ∧ SoundEntry text backend e.1 e.2

/-- The same where there may be no cache. -/
def TableInv (start : Option ResponseCache) : Option ResponseCache → Prop
  | some cache => ∃ c, start = some c ∧ CacheInv text backend c cache
  | none => start = none

variable {text backend} {start cache : ResponseCache}

theorem cacheInv_withLimits (maxEntries maxKeyBytes maxResponseBytes : Nat) :
    CacheInv text backend (.withLimits maxEntries maxKeyBytes maxResponseBytes)
      (.withLimits maxEntries maxKeyBytes maxResponseBytes) where
  maxEntries := rfl
  maxKeyBytes := rfl
  maxResponseBytes := rfl
  nodup := by simp [ResponseCache.withLimits]
  count := by simp [ResponseCache.withLimits]
  entry := by simp [ResponseCache.withLimits]

/-- A lookup changes the counters only. -/
theorem CacheInv.lookup (h : CacheInv text backend start cache) (key : List UInt8) :
    CacheInv text backend start (cache.lookup key).2 := by
  unfold ResponseCache.lookup
  split
  · exact ⟨h.maxEntries, h.maxKeyBytes, h.maxResponseBytes, h.nodup, h.count, h.entry⟩
  · exact ⟨h.maxEntries, h.maxKeyBytes, h.maxResponseBytes, h.nodup, h.count, h.entry⟩

theorem CacheInv.found (h : CacheInv text backend start cache) {key response : List UInt8}
    (hf : (cache.lookup key).1 = some response) : SoundEntry text backend key response := by
  unfold ResponseCache.lookup at hf
  split at hf
  · rename_i found hl
    cases hf
    have hmem : (key, response) ∈ cache.entries := by
      obtain ⟨l₁, l₂, hl, -⟩ := List.lookup_eq_some_iff.mp hl
      rw [hl]
      simp
    exact (h.entry _ hmem).2.2
  · cases hf

theorem CacheInv.insert (h : CacheInv text backend start cache) {key response : List UInt8}
    (hs : SoundEntry text backend key response) :
    CacheInv text backend start (cache.insert key response) := by
  unfold ResponseCache.insert
  split
  · exact h
  · rename_i hlimits
    push Not at hlimits
    obtain ⟨hmax, hkey, hresponse⟩ := hlimits
    -- whether it was emptied or not, there is room for one more
    have room : ∀ old : List (List UInt8 × List UInt8), old ⊆ cache.entries →
        (old.map Prod.fst).Nodup → old.length < cache.maxEntries →
        CacheInv text backend start { cache with
          entries := ResponseCache.insertEntry old key response
          stats := { cache.stats with inserts := cache.stats.inserts + 1 } } := by
      intro old hsub hnodup hlt
      refine ⟨h.maxEntries, h.maxKeyBytes, h.maxResponseBytes, ?_, ?_, ?_⟩
      · simp only [ResponseCache.insertEntry, List.map_cons]
        refine List.nodup_cons.mpr ⟨?_, hnodup.sublist (List.filter_sublist.map _)⟩
        simp [List.mem_map, List.mem_filter]
      · have := List.length_filter_le (fun e => decide (e.1 ≠ key)) old
        simp only [ResponseCache.insertEntry, List.length_cons]
        omega
      · intro e he
        rcases List.mem_cons.mp he with rfl | he
        · exact ⟨hkey, hresponse, hs⟩
        · exact h.entry e (hsub (List.mem_of_mem_filter he))
    dsimp only
    split
    · exact room [] (List.nil_subset _) (by simp) (by simpa using Nat.pos_of_ne_zero hmax)
    · rename_i hfull
      exact room cache.entries (List.Subset.refl _) h.nodup (by omega)

/-- The table of `dispatch_payload_with_cache` satisfies the rule of transparency. -/
theorem rule_dispatchPayloadWithCache (start : Option ResponseCache)
    (hid : ∀ id request, backend.handle (withId id request) = backend.handle request) :
    (dispatchPayloadWithCache text backend).Rule (TableInv text backend start)
      (SoundEntry text backend) where
  look := by
    rintro (_ | cache) key h
    · exact h
    · obtain ⟨c, hc, h⟩ := h
      exact ⟨c, hc, h.lookup key⟩
  found := by
    rintro (_ | cache) key v h hf
    · cases hf
    · obtain ⟨c, -, h⟩ := h
      exact h.found hf
  put := by
    rintro (_ | cache) p v h - hs
    · exact h
    · obtain ⟨c, hc, h⟩ := h
      exact ⟨c, hc, h.insert hs⟩
  stored := by
    rintro (_ | cache) p v - ha hstore
    · cases ha
    · simp only [dispatchPayloadWithCache, Bool.and_eq_true] at ha hstore
      split at hstore
      · rename_i bytes hb
        split at hstore
        · rename_i hc
          cases hstore
          exact ⟨p, ha.1, rfl, hb, isCacheableBinaryResponse_iff.mp hc⟩
        · cases hstore
      · cases hstore
  adapt := by
    rintro (_ | cache) p v - ha ⟨payload, hbin, hkey, hd, hv⟩
    · cases ha
    · simp only [dispatchPayloadWithCache, Bool.and_eq_true] at ha
      exact (dispatchPayload_rebind hid ha.1 hbin hkey hd hv).symm

/-- The limits never change, so what is accepted does not either. -/
theorem accepts_iff (start t : Option ResponseCache) (payload : List UInt8)
    (h : TableInv text backend start t) :
    (dispatchPayloadWithCache text backend).accepts t payload = true ↔
      (dispatchPayloadWithCache text backend).accepts start payload = true := by
  cases t with
  | none =>
    rw [show start = none from h]
  | some cache =>
    obtain ⟨c, rfl, hc⟩ := h
    simp only [dispatchPayloadWithCache, ResponseCache.acceptsPayload, hc.maxEntries,
      hc.maxKeyBytes]

end Table

/-- **Response caching is transparent.** For a backend whose result does not depend on the
request id, any limits, any family of payloads and any interleaving of the calls: a call returns
what `dispatch_payload` returns for its own payload, it can always be brought to its end, and at
all times the cache holds at most `max_entries` entries, under distinct keys, each within the
limits and each a verdict. Without a cache nothing changes. -/
theorem cache_transparent (text : TextRoute) (backend : Backend)
    (hid : ∀ id request, backend.handle (withId id request) = backend.handle request)
    {ι : Type} [DecidableEq ι] (payload : ι → List UInt8)
    (maxEntries maxKeyBytes maxResponseBytes : Nat) (start : Option ResponseCache)
    (hstart : start = none ∨ start = some (.withLimits maxEntries maxKeyBytes maxResponseBytes))
    (s : Memo.State ι (Option ResponseCache) (Result (List UInt8)))
    (h : (dispatchPayloadWithCache text backend).Reaches payload start s) :
    (∀ i r, s.call i = .done r → r = dispatchPayload text (payload i) backend) ∧
    (∀ i, (∀ r, s.call i ≠ .done r) →
      ∃ s', (dispatchPayloadWithCache text backend).Step payload s s') ∧
    ∀ cache, s.table = some cache →
      cache.entries.length ≤ maxEntries ∧ (cache.entries.map Prod.fst).Nodup ∧
      ∀ e ∈ cache.entries, e.1.length ≤ maxKeyBytes ∧ e.2.length ≤ maxResponseBytes ∧
        ∃ r, BinaryResponse.parse e.2 = ok r ∧ (r.envelope.status = .sat ∨
          r.envelope.status = .unsat ∨ r.envelope.status = .simplified) := by
  have hinit : TableInv text backend start start := by
    rcases hstart with rfl | rfl
    · rfl
    · exact ⟨_, rfl, cacheInv_withLimits _ _ _⟩
  obtain ⟨htable, hcalls⟩ := h.inv (rule_dispatchPayloadWithCache start hid)
    (accepts_iff start) hinit
  refine ⟨fun i r hr => ?_, fun i hi => Memo.exists_step s i hi, fun cache hc => ?_⟩
  · have := hcalls i
    rw [hr] at this
    exact this
  · rw [hc] at htable
    obtain ⟨c, hcs, hinv⟩ := htable
    obtain rfl : c = .withLimits maxEntries maxKeyBytes maxResponseBytes := by
      rcases hstart with hstart | hstart
      · rw [hstart] at hcs
        cases hcs
      · rw [hstart] at hcs
        exact (Option.some.inj hcs).symm
    have hcount := hinv.count
    rw [hinv.maxEntries] at hcount
    refine ⟨hcount, hinv.nodup, fun e he => ?_⟩
    obtain ⟨hk, hr, payload, -, -, -, hv⟩ := hinv.entry e he
    rw [hinv.maxKeyBytes] at hk
    rw [hinv.maxResponseBytes] at hr
    exact ⟨hk, hr, hv⟩

/-- Two requests that differ in their id, run against a cache of one entry: however the calls
interleave, the second is answered under its own id. -/
theorem cache_transparent_two :
    let backend := constantBackend (ok (satP [1]))
    let payload : Bool → List UInt8 := fun b => framed (withId (if b then 9 else 7) assertP)
    ∀ s, (dispatchPayloadWithCache (fun _ _ => ok []) backend).Reaches payload
        (some (.withLimits 1 1000 1000)) s →
      ∀ r, s.call true = .done r → r = dispatchPayload (fun _ _ => ok []) (payload true) backend := by
  intro backend payload s h r hr
  exact (cache_transparent _ backend (fun _ _ => rfl) payload 1 1000 1000 _ (.inr rfl) s h).1
    true r hr

end Server
end SmtServer
