import Mathlib.Algebra.Order.Field.Basic
import Mathlib.Algebra.Order.Field.Rat
import Mathlib.Data.Finset.Image
import MoeInfinity.Lib.Dict
import MoeInfinity.Lib.SlidingWindow
import MoeInfinity.Lib.Runs

/-! # Keys and rate limits (`entrypoints/openai/api_server_v2.py`)

`_check_auth` looks at every request: with keys configured, a request off the exempt paths needs one
of them, and with a rate limit each key has the times of its last requests in a bucket. Times are
exact, and the clock does not go back from one call to the next.

* `Entry`, `log`: the calls of a run with their answers.
* `limitedKey`: the key whose bucket a request counts for.
* `rate_limited`: the limit in every window, the reason of every 429, and the independence of the
  keys. -/

namespace MoeInfinity.Entrypoints.Auth

open MoeInfinity.Lib.Dict MoeInfinity.Lib.SlidingWindow MoeInfinity.Lib.Runs

/-- What `_check_auth` reads of a request. -/
structure Request where
  path : String
  authorization : Option String
deriving DecidableEq, Repr

structure ErrorResponse where
  statusCode : ℕ
  message : String
  errorType : String
  code : String
deriving DecidableEq, Repr

structure AuthState (τ : Type*) where
  apiKeys : Finset String
  rateLimitRpm : ℕ
  rateLimitBuckets : List (String × List τ)

/-! ### Configuration -/

/-- The characters that `str.strip` takes away. -/
def isSpace (c : Char) : Bool :=
  let n := c.toNat
  (9 ≤ n ∧ n ≤ 13) ∨ (28 ≤ n ∧ n ≤ 32) ∨ n = 0x85 ∨ n = 0xa0 ∨ n = 0x1680 ∨
  (0x2000 ≤ n ∧ n ≤ 0x200a) ∨
    n = 0x2028 ∨ n = 0x2029 ∨ n = 0x202f ∨ n = 0x205f ∨ n = 0x3000

def strip (s : List Char) : List Char := ((s.dropWhile isSpace).reverse.dropWhile isSpace).reverse

/-- `_configure_auth`. -/
def configureAuth {τ : Type*} (apiKeyCsv : Option String) (rateLimit : ℤ) : AuthState τ where
  apiKeys :=
    ((((apiKeyCsv.getD "").toList.splitOn ',').map strip).filter (· ≠ [])).toFinset.image
    String.ofList
  rateLimitRpm := (max 0 rateLimit).toNat
  rateLimitBuckets := []

/-! ### Checking -/

def exemptPaths : List String := ["/health", "/metrics", "/v1/models"]

def invalidApiKey : ErrorResponse :=
  ⟨401, "Invalid or missing API key.", "authentication_error", "invalid_api_key"⟩

def rateLimitExceeded : ErrorResponse :=
  ⟨429, "Rate limit exceeded. Please retry later.", "rate_limit_error", "rate_limit_exceeded"⟩

/-- What `partition(" ")` finds before and behind the first space. -/
def partitionSpace (s : String) : String × String :=
  (String.ofList (s.toList.takeWhile (· ≠ ' ')),
    String.ofList ((s.toList.dropWhile (· ≠ ' ')).drop 1))

variable {τ : Type*} [Field τ] [LinearOrder τ]

/-- `_check_auth` at the time `now`. -/
def checkAuth (now : τ) (request : Request) (s : AuthState τ) :
    Option ErrorResponse × AuthState τ :=
  if s.apiKeys = ∅ then (none, s)
  else if request.path ∈ exemptPaths then (none, s)
  else
    let authHeader := request.authorization.getD ""
    let scheme := (partitionSpace authHeader).1
    let token := (partitionSpace authHeader).2
    if scheme ≠ "Bearer" ∨ token = "" ∨ token ∉ s.apiKeys then (some invalidApiKey, s)
    else if s.rateLimitRpm ≤ 0 then (none, s)
    else
      let windowStart := now - 60
      let bucket := ((s.rateLimitBuckets.lookup token).getD []).filter (windowStart ≤ ·)
      if s.rateLimitRpm ≤ bucket.length then
        (some rateLimitExceeded, { s with rateLimitBuckets := put token bucket s.rateLimitBuckets })
      else (none, { s with rateLimitBuckets := put token (bucket ++ [now]) s.rateLimitBuckets })

/-! ### Runs -/

/-- A call of `_check_auth`: when, and on what. -/
structure Call (τ : Type*) where
  now : τ
  request : Request

structure Entry (τ : Type*) extends Call τ where
  response : Option ErrorResponse

def step (s : AuthState τ) (c : Call τ) : AuthState τ := (checkAuth c.now c.request s).2

/-- The calls of a run with their answers. -/
def log (s : AuthState τ) : List (Call τ) → List (Entry τ)
  | [] => []
  | c :: calls => ⟨c, (checkAuth c.now c.request s).1⟩ :: log (step s c) calls

/-- The key whose rate limit a request counts for. -/
def AuthState.limitedKey (s : AuthState τ) (request : Request) : Option String :=
  let token := (partitionSpace (request.authorization.getD "")).2
  if request.path ∈ exemptPaths ∨ (partitionSpace (request.authorization.getD "")).1 ≠ "Bearer" ∨
  token = "" ∨
      token ∉ s.apiKeys ∨ s.rateLimitRpm = 0 then none
  else some token

/-- The times of the accepted requests that count for a key. -/
def accepted (s : AuthState τ) (key : String) (entries : List (Entry τ)) : List τ :=
  (entries.filter fun e => s.limitedKey e.request = some key ∧ e.response = none).map fun e => e.now

/-- What a rate limit promises about the answers to the requests of one key. -/
structure Fair (s : AuthState τ) (key : String) (calls : List (Call τ)) : Prop where
  /-- Every closed window has at most as many accepted requests as the limit says. -/
  window : ∀ a, (within 60 a (accepted s key (log s calls))).length ≤ s.rateLimitRpm
  /-- A request is accepted, or it is rejected because the last window is full. -/
  rejected : ∀ before e after, log s calls = before ++ e :: after →
  s.limitedKey e.request = some key →
    (e.response = none ∨ e.response = some rateLimitExceeded) ∧
      (e.response = some rateLimitExceeded ↔
        (within 60 (e.now - 60) (accepted s key before)).length = s.rateLimitRpm)
  /-- Nothing else is rejected for the rate. -/
  unlimited : ∀ e ∈ log s calls, s.limitedKey e.request = none → e.response ≠ some rateLimitExceeded
  /-- The answers are those of a run without the other requests. -/
  independent : (log s calls).filter (fun e => s.limitedKey e.request = some key) =
    log s (calls.filter fun c => s.limitedKey c.request = some key)

/-! ### One call -/

theorem limitedKey_eq_some {τ : Type*} {s : AuthState τ} {request : Request} {key : String}
    (h : s.limitedKey request = some key) :
    request.path ∉ exemptPaths ∧ (partitionSpace (request.authorization.getD "")).1 = "Bearer" ∧
      (partitionSpace (request.authorization.getD "")).2 = key ∧ key ≠ "" ∧ key ∈ s.apiKeys ∧
        s.rateLimitRpm ≠ 0 := by
  unfold AuthState.limitedKey at h
  simp only [Option.ite_none_left_eq_some, not_or, not_not, Option.some.injEq] at h
  obtain ⟨⟨hpath, hscheme, hempty, hkey, hrpm⟩, rfl⟩ := h
  exact ⟨hpath, hscheme, rfl, hempty, hkey, hrpm⟩

/-- Which requests are limited is up to the configuration. -/
theorem limitedKey_congr {τ : Type*} {s s' : AuthState τ} (hkeys : s.apiKeys = s'.apiKeys)
    (hrpm : s.rateLimitRpm = s'.rateLimitRpm) : s.limitedKey = s'.limitedKey := by
  funext request
  unfold AuthState.limitedKey
  rw [hkeys, hrpm]

def AuthState.bucket {τ : Type*} (s : AuthState τ) (key : String) : List τ :=
  (s.rateLimitBuckets.lookup key).getD []

section Calls

variable {s s' : AuthState τ} {now : τ} {request : Request} {key key' : String} {c : Call τ}
  {calls calls' : List (Call τ)}

/-- **A limited request** is an attempt on the bucket of its key. -/
theorem checkAuth_limited (h : s.limitedKey request = some key) : checkAuth now request s =
    (if (attempt 60 s.rateLimitRpm (s.bucket key) now).1 then none else some rateLimitExceeded,
      { s with
        rateLimitBuckets := put key (attempt 60 s.rateLimitRpm (s.bucket key) now).2
          s.rateLimitBuckets }) := by
  obtain ⟨hpath, hscheme, hkey, hempty, hmem, hrpm⟩ := limitedKey_eq_some h
  have hkeys : s.apiKeys ≠ ∅ := Finset.ne_empty_of_mem hmem
  unfold checkAuth
  rw [if_neg hkeys, if_neg hpath]
  simp only [hkey, hscheme]
  rw [if_neg (by simpa using ⟨hempty, hmem⟩), if_neg (by omega)]
  unfold attempt recent AuthState.bucket
  by_cases hfull : s.rateLimitRpm ≤
    (((s.rateLimitBuckets.lookup key).getD []).filter (now - 60 ≤ ·)).length
  · rw [if_pos hfull, if_pos hfull]
    rfl
  · rw [if_neg hfull, if_neg hfull]
    rfl

/-- Any other request leaves the buckets alone, and is not rejected for the rate. -/
theorem checkAuth_unlimited (h : s.limitedKey request = none) :
    (checkAuth now request s).1 ≠ some rateLimitExceeded ∧ (checkAuth now request s).2 = s := by
  have hcode : some invalidApiKey ≠ some rateLimitExceeded := by decide
  have hnone : (none : Option ErrorResponse) ≠ some rateLimitExceeded :=
    (Option.some_ne_none _).symm
  unfold checkAuth
  by_cases hkeys : s.apiKeys = ∅
  · rw [if_pos hkeys]
    exact ⟨hnone, rfl⟩
  by_cases hpath : request.path ∈ exemptPaths
  · rw [if_neg hkeys, if_pos hpath]
    exact ⟨hnone, rfl⟩
  rw [if_neg hkeys, if_neg hpath]
  simp only
  by_cases hbad : (partitionSpace (request.authorization.getD "")).1 ≠ "Bearer" ∨
      (partitionSpace (request.authorization.getD "")).2 = "" ∨
        (partitionSpace (request.authorization.getD "")).2 ∉ s.apiKeys
  · rw [if_pos hbad]
    exact ⟨hcode, rfl⟩
  · -- a good key counts for its bucket, unless there is no limit
    have hrpm : s.rateLimitRpm = 0 := by
      unfold AuthState.limitedKey at h
      simp only [ite_eq_left_iff, reduceCtorEq, imp_false, not_not] at h
      tauto
    rw [if_neg hbad, if_pos hrpm.le]
    exact ⟨hnone, rfl⟩

theorem step_config (s : AuthState τ) (c : Call τ) :
    (step s c).apiKeys = s.apiKeys ∧ (step s c).rateLimitRpm = s.rateLimitRpm := by
  unfold step
  cases hkey : s.limitedKey c.request with
  | none =>
    rw [(checkAuth_unlimited hkey).2]
    exact ⟨rfl, rfl⟩
  | some key =>
    rw [checkAuth_limited hkey]
    exact ⟨rfl, rfl⟩

theorem bucket_step_self (h : s.limitedKey c.request = some key) :
    (step s c).bucket key = (attempt 60 s.rateLimitRpm (s.bucket key) c.now).2 := by
  unfold step
  rw [checkAuth_limited h]
  show ((put key _ s.rateLimitBuckets).lookup key).getD [] = _
  rw [lookup_put_self]
  rfl

theorem bucket_step_of_ne (h : s.limitedKey c.request ≠ some key) :
    (step s c).bucket key = s.bucket key := by
  unfold step
  cases hkey : s.limitedKey c.request with
  | none => rw [(checkAuth_unlimited hkey).2]
  | some key' =>
    rw [checkAuth_limited hkey]
    have hne : key ≠ key' := fun h0 => h (h0 ▸ hkey)
    show ((put key' _ s.rateLimitBuckets).lookup key).getD [] = _
    rw [lookup_put_of_ne hne]
    rfl

/-! ### All calls -/

theorem exec_config (s : AuthState τ) (calls : List (Call τ)) :
    (exec step s calls).apiKeys = s.apiKeys ∧ (exec step s calls).rateLimitRpm = s.rateLimitRpm :=
  inv_exec_all (I := fun t => t.apiKeys = s.apiKeys ∧ t.rateLimitRpm = s.rateLimitRpm)
    (fun t c ht => ⟨(step_config t c).1.trans ht.1, (step_config t c).2.trans ht.2⟩)
    calls s ⟨rfl, rfl⟩

theorem limitedKey_exec (s : AuthState τ) (calls : List (Call τ)) :
    (exec step s calls).limitedKey = s.limitedKey :=
  limitedKey_congr (exec_config s calls).1 (exec_config s calls).2

theorem log_append (s : AuthState τ) (calls calls' : List (Call τ)) :
    log s (calls ++ calls') = log s calls ++ log (exec step s calls) calls' := by
  induction calls generalizing s with
  | nil => rfl
  | cons c calls ih =>
    rw [List.cons_append, log, log, ih, exec_cons, List.cons_append]

/-- An entry of the log is the answer to a call in the state before it. -/
theorem log_eq_append {before after : List (Entry τ)} {e : Entry τ}
    (h : log s calls = before ++ e :: after) :
    ∃ cs c cs', calls = cs ++ c :: cs' ∧ log s cs = before ∧
      e = ⟨c, (checkAuth c.now c.request (exec step s cs)).1⟩ := by
  induction calls generalizing s before with
  | nil => simp [log] at h
  | cons c calls ih =>
    rw [log] at h
    cases before with
    | nil =>
      obtain ⟨he, -⟩ := List.cons.inj h
      exact ⟨[], c, calls, rfl, rfl, he.symm⟩
    | cons e' before =>
      obtain ⟨he', hrest⟩ := List.cons.inj h
      obtain ⟨cs, c', cs', rfl, hlog, he⟩ := ih hrest
      exact ⟨c :: cs, c', cs', rfl, by rw [log, hlog, he'], he⟩

/-- **Independence**: the answers for a key depend on its bucket and its calls. -/
theorem log_filter (hkeys : s.apiKeys = s'.apiKeys) (hrpm : s.rateLimitRpm = s'.rateLimitRpm)
    (hbucket : s.bucket key = s'.bucket key) :
    (log s calls).filter (fun e => s.limitedKey e.request = some key) =
      log s' (calls.filter fun c => s.limitedKey c.request = some key) := by
  induction calls generalizing s s' with
  | nil => rfl
  | cons c calls ih =>
    have hstep := step_config s c
    have hlimited := limitedKey_congr hstep.1 hstep.2
    rw [log, List.filter_cons, List.filter_cons]
    by_cases hc : s.limitedKey c.request = some key
    · have hc' : s'.limitedKey c.request = some key := by rwa [← limitedKey_congr hkeys hrpm]
      have hstep' := step_config s' c
      have hnext : (step s c).bucket key = (step s' c).bucket key := by
        rw [bucket_step_self hc, bucket_step_self hc', hbucket, hrpm]
      have hih :=
        ih (hstep.1.trans (hkeys.trans hstep'.1.symm))
          (hstep.2.trans (hrpm.trans hstep'.2.symm)) hnext
      rw [hlimited] at hih
      rw [if_pos (decide_eq_true hc), if_pos (decide_eq_true hc), log, hih, checkAuth_limited hc,
        checkAuth_limited hc', hbucket, hrpm]
    · have hih :=
        ih (hstep.1.trans hkeys) (hstep.2.trans hrpm) ((bucket_step_of_ne hc).trans hbucket)
      rw [hlimited] at hih
      rw [if_neg (by simpa using hc), if_neg (by simpa using hc), hih]

theorem accepted_append {τ : Type*} (s : AuthState τ) (key : String)
    (entries entries' : List (Entry τ)) :
    accepted s key (entries ++ entries') = accepted s key entries ++ accepted s key entries' := by
  unfold accepted
  rw [List.filter_append, List.map_append]

variable [IsStrictOrderedRing τ]

/-- **The invariant of a run**: the bucket of a key stands for all its accepted requests. -/
theorem tracks_run (hs : s.rateLimitBuckets = []) (key : String)
    (hclock : (calls.map Call.now).Pairwise (· ≤ ·)) (hpast : ∀ c ∈ calls, c.now ≤ now) :
    Tracks 60 s.rateLimitRpm ((exec step s calls).bucket key)
      (accepted s key (log s calls)) now := by
  induction calls using List.reverseRecOn generalizing now with
  | nil =>
    have hbucket : s.bucket key = [] := by
      unfold AuthState.bucket
      rw [hs]
      rfl
    rw [exec_nil, hbucket]
    exact tracks_nil
  | append_singleton calls c ih =>
    rw [List.map_append, List.pairwise_append] at hclock
    have hbefore : ∀ d ∈ calls, d.now ≤ c.now := fun d hd =>
      hclock.2.2 _ (List.mem_map_of_mem hd) _ (List.mem_map_of_mem List.mem_cons_self)
    have hnow : c.now ≤ now := hpast c (List.mem_append_right _ List.mem_cons_self)
    have hrpm := (exec_config s calls).2
    have htracks := ih hclock.1 hbefore
    rw [log_append, accepted_append, exec_append, exec_cons, exec_nil]
    by_cases hc : s.limitedKey c.request = some key
    · have hc' : (exec step s calls).limitedKey c.request = some key := by rwa [limitedKey_exec]
      have hentry : accepted s key (log (exec step s calls) [c]) =
          if (attempt 60 s.rateLimitRpm ((exec step s calls).bucket key) c.now).1 then
            [c.now] else [] := by
        rw [log, log, checkAuth_limited hc', hrpm]
        unfold accepted
        cases (attempt 60 s.rateLimitRpm ((exec step s calls).bucket key) c.now).1 <;> simp [hc]
      rw [bucket_step_self hc', hrpm, hentry]
      exact htracks.attempt.later hnow
    · have hc' : (exec step s calls).limitedKey c.request ≠ some key := by rwa [limitedKey_exec]
      have hentry : accepted s key (log (exec step s calls) [c]) = [] := by
        rw [log, log]
        unfold accepted
        simp [hc]
      rw [bucket_step_of_ne hc', hentry, List.append_nil]
      exact htracks.later hnow

/-- What the answer to a limited request goes by. -/
theorem answer_limited (hs : s.rateLimitBuckets = [])
    (hclock : ((calls ++ [c]).map Call.now).Pairwise (· ≤ ·))
    (hc : s.limitedKey c.request = some key) :
    (checkAuth c.now c.request (exec step s calls)).1 =
      if (within 60 (c.now - 60) (accepted s key (log s calls))).length = s.rateLimitRpm then
        some rateLimitExceeded
      else none := by
  rw [List.map_append, List.pairwise_append] at hclock
  have hbefore : ∀ d ∈ calls, d.now ≤ c.now := fun d hd =>
    hclock.2.2 _ (List.mem_map_of_mem hd) _ (List.mem_map_of_mem List.mem_cons_self)
  have hrefused := (tracks_run hs key hclock.1 hbefore).refused_iff
  have hc' : (exec step s calls).limitedKey c.request = some key := by rwa [limitedKey_exec]
  rw [checkAuth_limited hc', (exec_config s calls).2]
  by_cases hfull : (within 60 (c.now - 60) (accepted s key (log s calls))).length = s.rateLimitRpm
  · rw [if_pos hfull, hrefused.mpr hfull]
    rfl
  · rw [if_neg hfull, if_pos (by simpa using mt hrefused.mp hfull)]

end Calls

/-- **The rate limit** holds for every key in every run from a new configuration. -/
theorem rate_limited [IsStrictOrderedRing τ] (apiKeyCsv : Option String) (rpm : ℕ)
    (calls : List (Call τ)) (hclock : (calls.map Call.now).Pairwise (· ≤ ·)) (key : String) :
    Fair (configureAuth apiKeyCsv rpm) key calls := by
  set s : AuthState τ := configureAuth apiKeyCsv rpm
  have hs : s.rateLimitBuckets = [] := rfl
  refine ⟨fun a => ?_, fun before e after hlog he => ?_, fun e hmem he => ?_,
    log_filter rfl rfl rfl⟩
  · cases hlast : calls.getLast? with
    | none =>
      rw [List.getLast?_eq_none_iff.mp hlast]
      exact Nat.zero_le _
    | some c =>
      have hpast : ∀ d ∈ calls, d.now ≤ c.now := by
        obtain ⟨cs, rfl⟩ := List.getLast?_eq_some_iff.mp hlast
        intro d hd
        rcases List.mem_append.mp hd with hd | hd
        · rw [List.map_append, List.pairwise_append] at hclock
          exact hclock.2.2 _ (List.mem_map_of_mem hd) _ (List.mem_map_of_mem List.mem_cons_self)
        · rw [List.mem_singleton.mp hd]
      exact (tracks_run hs key hclock hpast).bounded a
  · obtain ⟨cs, c, cs', rfl, rfl, rfl⟩ := log_eq_append hlog
    have hclock' : ((cs ++ [c]).map Call.now).Pairwise (· ≤ ·) :=
      hclock.sublist (List.Sublist.map _ (by simp))
    have hanswer := answer_limited hs hclock' he
    simp only [hanswer]
    by_cases hfull : (within 60 (c.now - 60) (accepted s key (log s cs))).length = s.rateLimitRpm
    · rw [if_pos hfull]
      exact ⟨Or.inr rfl, fun _ => hfull, fun _ => rfl⟩
    · rw [if_neg hfull]
      exact ⟨Or.inl rfl, fun h0 => absurd h0.symm (Option.some_ne_none _),
        fun h0 => absurd h0 hfull⟩
  · obtain ⟨before, after, hlog⟩ := List.append_of_mem hmem
    obtain ⟨cs, c, cs', -, -, rfl⟩ := log_eq_append hlog
    exact (checkAuth_unlimited (by rwa [limitedKey_exec])).1

/-- Two requests in a minute are accepted, the third is not, and the one a minute later is. -/
def sample : List (Call ℚ) :=
  [0, 30, 60, 61].map fun now => ⟨now, ⟨"/v1/completions", some "Bearer test-key-1"⟩⟩

theorem sample_limited : Fair (configureAuth (some "test-key-1") (2 : ℕ)) "test-key-1" sample :=
  rate_limited (some "test-key-1") 2 sample (by decide +kernel) "test-key-1"

example : (log (configureAuth (some "test-key-1, test-key-2") 2) sample).map Entry.response =
    [none, none, some rateLimitExceeded, none] := by decide +kernel

end MoeInfinity.Entrypoints.Auth
