import Edgion.Common.Steps
import Edgion.Common.Text

/-!
# OpenID Connect — where a login ends, and the keys

A request that starts a login leaves its path and query in a signed cookie,
and the callback redirects to what it finds there if it starts with a slash.
With a second slash a browser reads it as the name of a host.

The keys of the provider are fetched under a lock, and again when they expire,
also before the interval between two requests is over.
-/

namespace Edgion.OpenidConnect

open Common Text List

/-- The `original_url` that `build_authorization_redirect` stores. -/
def originalUrl (path : String) : Option String → String
  | some q => if q ≠ "" then path ++ "?" ++ q else path
  | none => path

def sanitizeRedirectTarget (originalUrl : String) : String :=
  if startsWith originalUrl "/" then originalUrl else "/"

/-- What counts as a slash in the URL of a web page. -/
def isSlash (c : Char) : Bool := c = '/' || c = '\\'

/-- **The authority that a browser reads** in a location that starts with a slash: what follows
more slashes, up to the path. Tabs and line ends are dropped. -/
def authority (location : String) : Option (List Char) :=
  match (location.toList.takeWhile (· ∉ ['?', '#'])).filter (· ∉ ['\t', '\n', '\r']) with
  | _ :: c :: rest =>
    if isSlash c then some ((rest.dropWhile isSlash).takeWhile (!isSlash ·)) else none
  | _ => none

variable {Origin : Type*} (parse : List Char → Option Origin) (origin : Origin)

/-- **Where a browser goes** that reads authorities as `parse` does. -/
def resolve (location : String) : Option Origin := (authority location).elim (some origin) parse

/-- A query names no host. -/
theorem authority_append_query (path q : String) : authority (path ++ "?" ++ q) = authority path := by
  have hstop : ∀ cs cs' : List Char, (cs ++ '?' :: cs').takeWhile (· ∉ ['?', '#']) =
      cs.takeWhile (· ∉ ['?', '#']) := by
    intro cs cs'
    induction cs with
    | nil => simp
    | cons c cs ih => rw [cons_append, takeWhile_cons, takeWhile_cons, ih]
  have hurl : (path ++ "?" ++ q).toList = path.toList ++ '?' :: q.toList := by simp
  rw [authority, hurl, hstop, authority]

/-- **A login ends at the origin it started from** exactly where its path, if it is kept, names
no other one. -/
theorem resolve_eq_origin_iff (path : String) (query : Option String) :
    resolve parse origin (sanitizeRedirectTarget (originalUrl path query)) = some origin ↔
      (startsWith path "/" = true → ∀ name ∈ authority path, parse name = some origin) := by
  have hurl : startsWith (originalUrl path query) "/" = startsWith path "/" ∧
      authority (originalUrl path query) = authority path := by
    unfold originalUrl
    split
    · split
      · refine ⟨?_, authority_append_query path _⟩
        cases h : path.toList <;> simp [startsWith, h, isPrefixOf]
      · exact ⟨rfl, rfl⟩
    · exact ⟨rfl, rfl⟩
  rw [sanitizeRedirectTarget, hurl.1]
  by_cases hslash : startsWith path "/" = true
  · rw [if_pos hslash, resolve, hurl.2]
    cases authority path <;> simp [hslash]
  · have hroot : authority "/" = none := by decide
    simp [resolve, hslash, hroot]

/-- **Two slashes lead away.** -/
theorem resolve_leads_away : resolve some "a.com".toList
    (sanitizeRedirectTarget (originalUrl "//b.com/" none)) = some "b.com".toList := by
  decide

/-! ## The keys of the provider -/

variable {JwkSet : Type*}

/-- `jwks_state`, with the intervals of the configuration. -/
structure Jwks (JwkSet : Type*) where
  minRefresh : ℕ
  ttl : ℕ
  set : Option JwkSet := none
  expiresAt : Option ℕ := none
  lastRefreshAt : Option ℕ := none

/-- A call and what it meets: the state and the time of its first look, which is without the lock,
the time of the second, when it has the discovery document, and the keys. -/
structure Call (JwkSet : Type*) where
  forceRefresh : Bool
  seen : Jwks JwkSet
  asked : ℕ
  now : ℕ
  discovery : Except String ℕ
  fetched : Except String JwkSet

namespace Jwks

variable (j : Jwks JwkSet)

def canRefresh (now : ℕ) : Bool := j.lastRefreshAt.all (j.minRefresh ≤ now - ·)

/-- What a look at the state is content with. -/
def cached (forceRefresh : Bool) (now : ℕ) : Option JwkSet :=
  j.set.filter fun _ => if forceRefresh then !j.canRefresh now else j.expiresAt.any (now < ·)

/-- `get_or_fetch_jwks`: the answer, the state left, the request and its result. -/
def getOrFetchJwks (call : Call JwkSet) :
    Except String JwkSet × Jwks JwkSet × Option (ℕ × Except String JwkSet) :=
  match (call.seen.cached call.forceRefresh call.asked).or
    (j.cached call.forceRefresh call.now) with
  | some jwks => (.ok jwks, j, none)
  | none =>
    if j.set.isNone && !j.canRefresh call.now then
      (.error "JWKS refresh blocked by minimum refresh interval", j, none)
    else
      match call.discovery, call.fetched with
      | .error e, _ => (.error e, j, none)
      | .ok start, .ok jwks => (.ok jwks,
          { j with set := jwks, expiresAt := call.now + j.ttl, lastRefreshAt := call.now },
          some (start, .ok jwks))
      | .ok start, .error e => (j.set.elim (.error e) .ok,
          { j with lastRefreshAt := call.now }, some (start, .error e))

end Jwks

/-- The state, the time, and the requests, the last one first. -/
structure Keys (JwkSet : Type*) where
  jwks : Jwks JwkSet
  time : ℕ := 0
  requests : List (ℕ × Except String JwkSet) := []

namespace Keys

variable (s : Keys JwkSet) (call : Call JwkSet)

/-- Calls have the lock one after the other. -/
def step : Option (Keys JwkSet) :=
  let (_, jwks, request) := s.jwks.getOrFetchJwks call
  some ⟨jwks, (request.map (·.1)).getD call.now, request.toList ++ s.requests⟩

/-- **Requests keep their distance, and a call fails only** before a set was fetched, or without
the document. -/
def Right : Prop :=
  s.requests.Pairwise (fun r r' => r'.1 + s.jwks.minRefresh ≤ r.1) ∧
    ∀ call e, (s.jwks.getOrFetchJwks call).1 = .error e →
      (∀ r ∈ s.requests, ∀ jwks, r.2 ≠ .ok jwks) ∨ ∃ e, call.discovery = .error e

/-- The clock is monotone. -/
def Ticks : Prop := s.time ≤ call.now ∧ ∀ start, call.discovery = .ok start → call.now ≤ start

/-- **The document is at hand**, and a set that is there does not expire too early for a call
that is not forced. -/
def InTime : Prop :=
  (∀ start, call.discovery = .ok start → start = call.now) ∧
    (call.forceRefresh = false → s.jwks.set ≠ none → s.jwks.cached false call.now = none →
      s.jwks.canRefresh call.now = true)

/-- What holds along the run. -/
structure Sound : Prop where
  last : ∀ r ∈ s.requests, ∃ l, s.jwks.lastRefreshAt = some l ∧ r.1 ≤ l ∧ l ≤ s.time
  spaced : s.requests.Pairwise fun r r' => r'.1 + s.jwks.minRefresh ≤ r.1
  fetched : s.jwks.set = none → ∀ r ∈ s.requests, ∀ jwks, r.2 ≠ .ok jwks

variable {s call} {s' : Keys JwkSet}

/-- A call in time keeps what is known of the keys. -/
theorem Sound.step (h : s.Sound) (hok : s.Ticks call ∧ s.InTime call)
    (hstep : s.step call = some s') : s'.Sound := by
  obtain ⟨⟨htime, -⟩, hstart, hexpired⟩ := hok
  have hkept : Sound { s with time := call.now } :=
    { h with last := fun r hr => (h.last r hr).imp fun l hl => ⟨hl.1, hl.2.1, hl.2.2.trans htime⟩ }
  cases hstep
  split
  · exact hkept
  rename_i hnone
  split
  · exact hkept
  rename_i hblocked
  -- who gets here has waited since the last request
  have hcan : s.jwks.canRefresh call.now = true := by
    have hcached := (Option.or_eq_none_iff.1 hnone).2
    cases hset : s.jwks.set with
    | none => simpa [hset] using hblocked
    | some jwks =>
      cases hforce : call.forceRefresh with
      | false => exact hexpired hforce (by simp [hset]) (hforce ▸ hcached)
      | true => simpa [Jwks.cached, hset, hforce] using hcached
  have hfar : ∀ r ∈ s.requests, r.1 + s.jwks.minRefresh ≤ call.now := by
    intro r hr
    obtain ⟨l, hl, hle, hlt⟩ := h.last r hr
    have : s.jwks.minRefresh ≤ call.now - l := by simpa [Jwks.canRefresh, hl] using hcan
    omega
  have hlast {r} (hr : r ∈ s.requests) : r.1 ≤ call.now := (Nat.le_add_right _ _).trans (hfar r hr)
  split
  · exact hkept
  · obtain rfl := hstart _ ‹_›
    exact ⟨by simpa using fun _ _ => hlast, pairwise_cons.2 ⟨hfar, h.spaced⟩, nofun⟩
  · obtain rfl := hstart _ ‹_›
    exact ⟨by simpa using fun _ _ => hlast, pairwise_cons.2 ⟨hfar, h.spaced⟩,
      fun hset => by simpa using fun a b => h.fetched hset (a, b)⟩

/-- No set is there yet. -/
def fresh (JwkSet : Type*) (minRefresh ttl : ℕ) : Keys JwkSet where
  jwks := { minRefresh, ttl }

/-- **Where every call is in time**, all is right. -/
theorem right_of_inTime {minRefresh ttl : ℕ} {calls : List (Call JwkSet)}
    (hrun : Runs step (fun s call => s.Ticks call ∧ s.InTime call) (fresh JwkSet minRefresh ttl)
      calls s) : s.Right := by
  have h : s.Sound :=
    hrun.invariant ⟨by simp [fresh], .nil, by simp [fresh]⟩ fun _ _ _ => Sound.step
  refine ⟨h.spaced, fun call e he => ?_⟩
  cases hset : s.jwks.set with
  | none => exact .inl (h.fetched hset)
  | some jwks =>
    unfold Jwks.getOrFetchJwks at he
    grind

/-- A call that is not forced. -/
def callAt (now : ℕ) (seen : Jwks Unit) : Call Unit := ⟨false, seen, now, now, .ok now, .ok ()⟩

/-- The endpoint is down at first: a call at once after that is refused, and the next request
comes when the interval is over. -/
theorem right_of_inTime_retry :
    Right ⟨⟨60, 90, some (), some 150, some 60⟩, 60, [(60, .ok ()), (0, .error "down")]⟩ := by
  have hcall {s : Keys Unit} {call : Call Unit} (hdiscovery : call.discovery = .ok call.now)
      (htime : s.time ≤ call.now) (hset : s.jwks.set = none) : s.Ticks call ∧ s.InTime call := by
    have hstart : ∀ start, call.discovery = .ok start → call.now = start :=
      fun _ h => Except.ok.inj (hdiscovery.symm.trans h)
    exact ⟨⟨htime, fun _ h => (hstart _ h).le⟩, fun _ h => (hstart _ h).symm,
      fun _ hne => absurd hset hne⟩
  have hrun : Runs step (fun s call => s.Ticks call ∧ s.InTime call) (fresh Unit 60 90)
      [{ callAt 0 (fresh Unit 60 90).jwks with fetched := .error "down" },
        callAt 1 (fresh Unit 60 90).jwks, callAt 60 (fresh Unit 60 90).jwks]
      ⟨⟨60, 90, some (), some 150, some 60⟩, 60, [(60, .ok ()), (0, .error "down")]⟩ :=
    .cons (hcall rfl (by decide) rfl) rfl (.cons (hcall rfl (by decide) rfl) rfl
      (.cons (hcall rfl (by decide) rfl) rfl (.nil _)))
  exact right_of_inTime hrun

/-- **An expired set is fetched again at once.** -/
theorem not_right_expired : ∃ s, Runs step Ticks (fresh Unit 60 9)
    [callAt 0 (fresh Unit 60 9).jwks, callAt 9 ⟨60, 9, some (), some 9, some 0⟩] s ∧ ¬ s.Right := by
  refine ⟨_, .cons ?_ rfl (.cons ?_ rfl (.nil _)), fun h => absurd h.1 (by decide)⟩
  · exact ⟨by decide, fun _ h => (Except.ok.inj h).le⟩
  · exact ⟨by decide, fun _ h => (Except.ok.inj h).le⟩

/-- **What was fetched is not lost**: in every run, on whatever clock, once a set was fetched a
call fails only without the document. -/
theorem fetched_answers {minRefresh ttl : ℕ} {calls : List (Call JwkSet)}
    (hrun : Runs step (fun _ _ => True) (fresh JwkSet minRefresh ttl) calls s)
    {r : ℕ × Except String JwkSet} {jwks : JwkSet} (hr : r ∈ s.requests) (hfetched : r.2 = .ok jwks)
    {call : Call JwkSet} {start : ℕ} (hdiscovery : call.discovery = .ok start) :
    ∃ set, (s.jwks.getOrFetchJwks call).1 = .ok set := by
  have h : s.jwks.set = none → ∀ r ∈ s.requests, ∀ jwks, r.2 ≠ .ok jwks := by
    apply hrun.invariant
    · simp [fresh]
    · intro s call s' h _ hstep
      cases hstep
      split
      · exact h
      split
      · exact h
      split
      · exact h
      · nofun
      · exact fun hset => by simpa using fun a b => h hset (a, b)
  cases hset : s.jwks.set with
  | none => exact absurd hfetched (h hset r hr jwks)
  | some jwks =>
    unfold Jwks.getOrFetchJwks
    grind

theorem fetched_answers_later : ∃ set, ((⟨60, 9, some (), some 9, some 0⟩ : Jwks Unit).getOrFetchJwks
    { callAt 9 (fresh Unit 60 9).jwks with fetched := .error "" }).1 = .ok set :=
  fetched_answers (.cons (a := callAt 0 (fresh Unit 60 9).jwks) ⟨⟩ rfl (.nil _))
    List.mem_cons_self rfl rfl

end Keys

end Edgion.OpenidConnect
