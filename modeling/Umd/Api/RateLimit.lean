import Mathlib
/-!
# The rate limiter

`TokenBucketRateLimiter.allow` over buckets that fill at a rate, up to a capacity. A
bucket that was idle for two windows is made full at once: that gives no more than the
rate does if and only if two windows fill a bucket (`limiter_iff`).
-/

namespace Umd.Api

/-- `RateLimitSettings`, its seconds exact. -/
structure RateLimitSettings where
  enabled : Bool := true
  requestsPerWindow : ℤ := 1000
  windowSeconds : ℚ := 60
  burst : ℤ := 50

/-- `_Bucket`. -/
structure Bucket where
  tokens : ℚ
  lastRefill : ℚ

/-- What a call at some time returns. -/
structure Answer where
  time : ℚ
  allowed : Bool
  retryAfter : ℚ

namespace RateLimitSettings

variable (s : RateLimitSettings)

def capacity : ℚ := ((s.requestsPerWindow + s.burst : ℤ) : ℚ)

/-- `_rate_per_second`. -/
def ratePerSecond : ℚ := s.requestsPerWindow / max s.windowSeconds (1 / 1000)

/-- The bucket that a call finds, or a full one. -/
def found (b : Option Bucket) (now : ℚ) : Bucket :=
  match b with
  | none => { tokens := s.capacity, lastRefill := now }
  | some b => if now - b.lastRefill > s.windowSeconds * 2 then { tokens := s.capacity, lastRefill := now } else b

/-- The tokens after the refill. -/
def refilled (b : Option Bucket) (now : ℚ) : ℚ :=
  let b := s.found b now
  min s.capacity (b.tokens + (now - b.lastRefill) * s.ratePerSecond)

/-- `allow`, on one bucket. -/
def consume (b : Option Bucket) (now : ℚ) : Option Bucket × Answer :=
  if s.enabled then
    let tokens := s.refilled b now
    if tokens < 1 then
      (some { tokens, lastRefill := now }, { time := now, allowed := false, retryAfter := max ((1 - tokens) / s.ratePerSecond) (1 / 10) })
    else (some { tokens := tokens - 1, lastRefill := now }, { time := now, allowed := true, retryAfter := 0 })
  else (b, { time := now, allowed := true, retryAfter := 0 })

/-- `allow`. -/
def allow (buckets : String → Option Bucket) (bucketId : String) (now : ℚ) : (String → Option Bucket) × Answer :=
  let (b, answer) := s.consume (buckets bucketId) now
  (Function.update buckets bucketId b, answer)

/-- Calls on any buckets, and what those on one of them return. -/
def answers (bucketId : String) : (String → Option Bucket) → List (String × ℚ) → List Answer
  | _, [] => []
  | buckets, (id, now) :: calls =>
    let (buckets, answer) := s.allow buckets id now
    if id = bucketId then answer :: answers bucketId buckets calls else answers bucketId buckets calls

/-- The times of the calls on a bucket. -/
def timesOf (bucketId : String) (calls : List (String × ℚ)) : List ℚ := (calls.filter (·.1 = bucketId)).map (·.2)

/-- The calls of a bucket that were allowed between two times. -/
def allowedWithin (start stop : ℚ) (found : List Answer) : Nat :=
  found.countP fun x => x.allowed && decide (start ≤ x.time) && decide (x.time ≤ stop)

/-- An interval has as many allowed calls as a full bucket and the rate give. -/
def Bounded : Prop :=
  ∀ bucketId calls, (timesOf bucketId calls).Pairwise (· ≤ ·) → ∀ start length : ℚ, 0 ≤ length →
    (allowedWithin start (start + length) (s.answers bucketId (fun _ => none) calls) : ℚ) ≤
      s.requestsPerWindow + s.burst + length * s.ratePerSecond

/-- A call that waited as long as the denied one before it was told is allowed. -/
def RetryKept : Prop :=
  ∀ bucketId calls, (timesOf bucketId calls).Pairwise (· ≤ ·) → ∀ pre denied next post,
    s.answers bucketId (fun _ => none) calls = pre ++ denied :: next :: post → denied.allowed = false →
      denied.time + denied.retryAfter ≤ next.time → next.allowed = true

/-! ## One bucket -/

/-- Calls on one bucket. -/
def serve : Option Bucket → List ℚ → List Answer
  | _, [] => []
  | b, now :: times => (s.consume b now).2 :: serve (s.consume b now).1 times

variable {s}

/-- What a bucket answers depends on its own calls only. -/
theorem answers_eq (bucketId : String) (calls : List (String × ℚ)) (buckets : String → Option Bucket) :
    s.answers bucketId buckets calls = s.serve (buckets bucketId) (timesOf bucketId calls) := by
  induction calls generalizing buckets with
  | nil => rfl
  | cons call calls ih =>
    obtain ⟨id, now⟩ := call
    unfold answers allow timesOf
    dsimp only
    rw [ih]
    by_cases hid : id = bucketId
    · subst hid
      rw [if_pos rfl, Function.update_self, List.filter_cons_of_pos (by simp)]
      rfl
    · rw [if_neg hid, Function.update_of_ne (Ne.symm hid), List.filter_cons_of_neg (by simpa using hid)]
      rfl

/-- A bucket with tokens, and no more than it holds. -/
def Stands (s : RateLimitSettings) (b : Option Bucket) : Prop := ∀ x ∈ b, 0 ≤ x.tokens ∧ x.tokens ≤ s.capacity

/-- The settings of a limiter that limits. -/
structure Positive (s : RateLimitSettings) : Prop where
  requests : 0 < s.requestsPerWindow
  burst : 0 < s.burst
  window : 0 < s.windowSeconds

theorem Positive.rate (h : s.Positive) : 0 < s.ratePerSecond :=
  div_pos (by exact_mod_cast h.requests) (lt_max_of_lt_left h.window)

theorem Positive.capacity (h : s.Positive) : 2 ≤ s.capacity := by
  have hint : (2 : ℤ) ≤ s.requestsPerWindow + s.burst := by
    have := h.requests
    have := h.burst
    omega
  unfold RateLimitSettings.capacity
  exact_mod_cast hint

theorem refilled_le (b : Option Bucket) (now : ℚ) : s.refilled b now ≤ s.capacity := min_le_left _ _

theorem refilled_nonneg (h : s.Positive) {b : Option Bucket} (hb : s.Stands b) {now : ℚ} (hnow : ∀ x ∈ b, x.lastRefill ≤ now) :
    0 ≤ s.refilled b now := by
  have hcap := h.capacity
  refine le_min (by linarith) ?_
  cases b with
  | none =>
    change 0 ≤ s.capacity + (now - now) * s.ratePerSecond
    rw [sub_self, zero_mul]
    linarith
  | some x =>
    have hx := (hb x rfl).1
    have hpast := hnow x rfl
    unfold found
    dsimp only
    split
    · dsimp only
      rw [sub_self, zero_mul]
      linarith
    · have := mul_nonneg (sub_nonneg.2 hpast) h.rate.le
      linarith

/-- A call leaves tokens in the bucket, and the time it was made at. -/
theorem consume_bucket (h : s.Positive) (henabled : s.enabled = true) {b : Option Bucket} (hb : s.Stands b) {now : ℚ}
    (hnow : ∀ x ∈ b, x.lastRefill ≤ now) : ∃ x, (s.consume b now).1 = some x ∧ x.lastRefill = now ∧ 0 ≤ x.tokens ∧
      x.tokens ≤ s.capacity ∧ (s.consume b now).2.time = now ∧
      (((s.consume b now).2.allowed = false ∧ x.tokens = s.refilled b now ∧ x.tokens < 1 ∧
          (s.consume b now).2.retryAfter = max ((1 - x.tokens) / s.ratePerSecond) (1 / 10)) ∨
        ((s.consume b now).2.allowed = true ∧ x.tokens = s.refilled b now - 1)) := by
  have hnonneg := refilled_nonneg h hb hnow
  have hle := @refilled_le s b now
  unfold consume
  rw [if_pos henabled]
  dsimp only
  split
  · rename_i hlow
    exact ⟨_, rfl, rfl, hnonneg, hle, rfl, .inl ⟨rfl, rfl, hlow, rfl⟩⟩
  · rename_i hlow
    exact ⟨_, rfl, rfl, by dsimp only; linarith, by dsimp only; linarith, rfl, .inr ⟨rfl, rfl⟩⟩

/-! ## The rate is kept -/

/-- Two windows fill a bucket. -/
def Fills (s : RateLimitSettings) : Prop := s.capacity ≤ s.windowSeconds * 2 * s.ratePerSecond

/-- A refill gives no more than the rate, a reset included. -/
theorem refilled_rate (h : s.Positive) (hfills : s.Fills) {x : Bucket} (hx : 0 ≤ x.tokens) (now : ℚ) :
    s.refilled (some x) now ≤ x.tokens + (now - x.lastRefill) * s.ratePerSecond := by
  unfold refilled found
  dsimp only
  split
  · rename_i hidle
    have hrate := mul_lt_mul_of_pos_right hidle h.rate
    unfold Fills at hfills
    exact (min_le_left _ _).trans (by linarith)
  · exact min_le_right _ _

theorem allowedWithin_cons (start stop : ℚ) (x : Answer) (found : List Answer) : allowedWithin start stop (x :: found) =
    allowedWithin start stop found + if x.allowed = true ∧ start ≤ x.time ∧ x.time ≤ stop then 1 else 0 := by
  unfold allowedWithin
  rw [List.countP_cons]
  simp only [Bool.and_eq_true, decide_eq_true_eq, and_assoc]

theorem consume_time (b : Option Bucket) (now : ℚ) : (s.consume b now).2.time = now := by
  unfold consume
  by_cases henabled : s.enabled = true
  · rw [if_pos henabled]
    dsimp only
    split <;> rfl
  · rw [if_neg henabled]

theorem serve_late {start stop : ℚ} {times : List ℚ} (b : Option Bucket) (hlate : ∀ t ∈ times, stop < t) :
    allowedWithin start stop (s.serve b times) = 0 := by
  induction times generalizing b with
  | nil => rfl
  | cons now times ih =>
    unfold serve
    rw [allowedWithin_cons, ih _ fun t ht => hlate t (List.mem_cons_of_mem _ ht), consume_time, if_neg]
    rintro ⟨-, -, hle⟩
    have := hlate now (List.mem_cons_self ..)
    linarith

/-- From a bucket on, the calls up to a time are at most its tokens and what the rate gives. -/
theorem allowed_until (h : s.Positive) (henabled : s.enabled = true) (hfills : s.Fills) {times : List ℚ} {x : Bucket}
    (hx : 0 ≤ x.tokens ∧ x.tokens ≤ s.capacity) (htimes : (x.lastRefill :: times).Pairwise (· ≤ ·)) (start stop : ℚ)
    (hstop : x.lastRefill ≤ stop) :
    (allowedWithin start stop (s.serve (some x) times) : ℚ) ≤ x.tokens + (stop - x.lastRefill) * s.ratePerSecond := by
  induction times generalizing x with
  | nil =>
    have hgain := mul_nonneg (sub_nonneg.2 hstop) h.rate.le
    simp only [serve, allowedWithin, List.countP_nil, Nat.cast_zero]
    linarith [hx.1]
  | cons now times ih =>
    obtain ⟨hfirst, hrest⟩ := List.pairwise_cons.1 htimes
    have hpast := hfirst now (List.mem_cons_self ..)
    by_cases hlate : now ≤ stop
    · obtain ⟨y, hy, hlast, hlow, hhigh, htime, hanswer⟩ := @consume_bucket s h henabled (some x) (by rintro _ ⟨⟩; exact hx) now
        (by rintro _ ⟨⟩; exact hpast)
      have hgain := refilled_rate h hfills hx.1 now
      have hmore := ih ⟨hlow, hhigh⟩ (hlast ▸ hrest) (hlast ▸ hlate)
      rw [hlast] at hmore
      have hsplit : (now - x.lastRefill) * s.ratePerSecond + (stop - now) * s.ratePerSecond = (stop - x.lastRefill) * s.ratePerSecond := by
        ring
      unfold serve
      rw [hy, allowedWithin_cons]
      push_cast
      rcases hanswer with ⟨hdenied, htokens, -, -⟩ | ⟨-, htokens⟩
      · rw [if_neg fun hall => by rw [hdenied] at hall; exact Bool.false_ne_true hall.1]
        linarith
      · split <;> linarith
    · -- every call from here on is too late
      have hnone : allowedWithin start stop (s.serve (some x) (now :: times)) = 0 := by
        apply serve_late
        intro t ht
        rcases List.mem_cons.1 ht with rfl | ht
        · exact not_le.1 hlate
        · exact lt_of_lt_of_le (not_le.1 hlate) ((List.pairwise_cons.1 hrest).1 t ht)
      have hgain := mul_nonneg (sub_nonneg.2 hstop) h.rate.le
      rw [hnone, Nat.cast_zero]
      linarith [hx.1]

/-- The calls of an interval are at most a full bucket and what the rate gives. -/
theorem allowed_from (h : s.Positive) (henabled : s.enabled = true) (hfills : s.Fills) {times : List ℚ} {b : Option Bucket}
    (hb : s.Stands b) (htimes : times.Pairwise (· ≤ ·)) (hpast : ∀ x ∈ b, ∀ t ∈ times, x.lastRefill ≤ t) {start length : ℚ}
    (hlength : 0 ≤ length) :
    (allowedWithin start (start + length) (s.serve b times) : ℚ) ≤ s.capacity + length * s.ratePerSecond := by
  have hwhole := mul_nonneg hlength h.rate.le
  induction times generalizing b with
  | nil =>
    simp only [serve, allowedWithin, List.countP_nil, Nat.cast_zero]
    linarith [h.capacity]
  | cons now times ih =>
    obtain ⟨hfirst, hrest⟩ := List.pairwise_cons.1 htimes
    obtain ⟨y, hy, hlast, hlow, hhigh, htime, hanswer⟩ := consume_bucket h henabled hb fun x hx => hpast x hx now (List.mem_cons_self ..)
    unfold serve
    rw [hy, allowedWithin_cons, htime]
    by_cases hearly : now < start
    · -- the call is before the interval
      rw [if_neg fun hall => by linarith [hall.2.1], Nat.add_zero]
      apply ih
      · rintro _ ⟨⟩
        exact ⟨hlow, hhigh⟩
      · exact hrest
      · rintro _ ⟨⟩ t ht
        exact hlast ▸ hfirst t ht
    · by_cases hlate : now ≤ start + length
      · have hmore := @allowed_until s h henabled hfills times y ⟨hlow, hhigh⟩ (hlast ▸ htimes) start (start + length) (hlast ▸ hlate)
        have hgain : (start + length - now) * s.ratePerSecond ≤ length * s.ratePerSecond :=
          mul_le_mul_of_nonneg_right (by linarith) h.rate.le
        have hfull := @refilled_le s b now
        rw [hlast] at hmore
        push_cast
        rcases hanswer with ⟨hdenied, htokens, -, -⟩ | ⟨-, htokens⟩
        · rw [if_neg fun hall => by rw [hdenied] at hall; exact Bool.false_ne_true hall.1]
          linarith
        · split <;> linarith
      · rw [if_neg fun hall => hlate hall.2.2, serve_late _ fun t ht => lt_of_lt_of_le (not_le.1 hlate) (hfirst t ht)]
        push_cast
        linarith [h.capacity]

/-! ## Waiting as told -/

/-- After a denied call a bucket has a token again when its wait is over. -/
theorem refilled_after (h : s.Positive) {x : Bucket} {now : ℚ} (hwait : x.lastRefill + (1 - x.tokens) / s.ratePerSecond ≤ now) :
    1 ≤ s.refilled (some x) now := by
  have hcap := h.capacity
  have hgain : 1 - x.tokens ≤ (now - x.lastRefill) * s.ratePerSecond := by
    rw [← div_le_iff₀ h.rate]
    linarith
  refine le_min (by linarith) ?_
  unfold found
  dsimp only
  split
  · dsimp only
    rw [sub_self, zero_mul]
    linarith
  · linarith

theorem retry_allowed (h : s.Positive) (henabled : s.enabled = true) {times : List ℚ} {b : Option Bucket} (hb : s.Stands b)
    (htimes : times.Pairwise (· ≤ ·)) (hpast : ∀ x ∈ b, ∀ t ∈ times, x.lastRefill ≤ t) {pre post : List Answer} {denied next : Answer}
    (hserve : s.serve b times = pre ++ denied :: next :: post) (hdenied : denied.allowed = false)
    (hwait : denied.time + denied.retryAfter ≤ next.time) : next.allowed = true := by
  induction times generalizing b pre with
  | nil => cases (List.append_eq_nil_iff.1 hserve.symm).2
  | cons now times ih =>
    obtain ⟨hfirst, hrest⟩ := List.pairwise_cons.1 htimes
    obtain ⟨y, hy, hlast, hlow, hhigh, htime, hanswer⟩ := consume_bucket h henabled hb fun x hx => hpast x hx now (List.mem_cons_self ..)
    have hstands : s.Stands (some y) := by
      rintro _ ⟨⟩
      exact ⟨hlow, hhigh⟩
    unfold serve at hserve
    rw [hy] at hserve
    cases pre with
    | cons _ pre =>
      refine ih hstands hrest ?_ (List.cons.inj hserve).2
      rintro _ ⟨⟩ t ht
      exact hlast ▸ hfirst t ht
    | nil =>
      obtain ⟨hthis, hserve⟩ := List.cons.inj hserve
      rcases hanswer with ⟨-, -, -, hretry⟩ | ⟨hallowed, -⟩
      · cases times with
        | nil => cases hserve
        | cons later times =>
          have hlater := hfirst later (List.mem_cons_self ..)
          obtain ⟨z, -, -, -, -, htime', hanswer'⟩ := @consume_bucket s h henabled (some y) hstands later
            (by rintro _ ⟨⟩; exact hlast ▸ hlater)
          have hnext : (s.consume (some y) later).2 = next := (List.cons.inj hserve).1
          have htold : (1 - y.tokens) / s.ratePerSecond ≤ denied.retryAfter := by
            rw [← hthis, hretry]
            exact le_max_left _ _
          rw [← hnext, htime', ← hthis, htime] at hwait
          rw [← hthis] at htold
          have hfull := @refilled_after s h y later (by rw [hlast]; linarith)
          rcases hanswer' with ⟨-, htokens, hempty, -⟩ | ⟨hallowed, -⟩
          · linarith
          · exact hnext ▸ hallowed
      · rw [← hthis, hallowed] at hdenied
        cases hdenied

/-! ## The rate is broken -/

/-- As many calls at one time as the bucket has tokens are all allowed. -/
theorem serve_drain (h : s.Positive) (henabled : s.enabled = true) {start stop t : ℚ} (hstart : start ≤ t) (hstop : t ≤ stop) (rest : List ℚ)
    {k : ℕ} (hk : (k : ℚ) ≤ s.capacity) : allowedWithin start stop (s.serve (some ⟨k, t⟩) (List.replicate k t ++ rest)) =
      allowedWithin start stop (s.serve (some ⟨0, t⟩) rest) + k := by
  induction k with
  | zero => simp only [List.replicate_zero, List.nil_append, Nat.cast_zero, Nat.add_zero]
  | succ k ih =>
    have hsmaller : (k : ℚ) ≤ s.capacity := by
      push_cast at hk
      linarith
    have hrefilled : s.refilled (some ⟨((k + 1 : ℕ) : ℚ), t⟩) t = (k : ℚ) + 1 := by
      unfold refilled found
      dsimp only
      rw [if_neg (by linarith [h.window]), sub_self, zero_mul, add_zero, min_eq_right hk]
      push_cast
      rfl
    have hconsume : s.consume (some ⟨((k + 1 : ℕ) : ℚ), t⟩) t = (some ⟨k, t⟩, { time := t, allowed := true, retryAfter := 0 }) := by
      unfold consume
      rw [if_pos henabled]
      dsimp only
      rw [hrefilled, if_neg (by have := Nat.cast_nonneg (α := ℚ) k; linarith), add_sub_cancel_right]
    rw [List.replicate_succ, List.cons_append, serve, hconsume, allowedWithin_cons, if_pos ⟨rfl, hstart, hstop⟩, ih hsmaller]
    omega

/-- A call on a new bucket or on one left idle finds it full. -/
theorem serve_full (henabled : s.enabled = true) {b : Option Bucket} {now : ℚ} (hfound : s.found b now = ⟨s.capacity, now⟩)
    (hwindow : 0 < s.windowSeconds) (times : List ℚ) : s.serve b (now :: times) = s.serve (some ⟨s.capacity, now⟩) (now :: times) := by
  have hsame : s.consume b now = s.consume (some ⟨s.capacity, now⟩) now := by
    have hfull : s.found (some ⟨s.capacity, now⟩) now = ⟨s.capacity, now⟩ := if_neg (by dsimp only; linarith)
    unfold consume refilled
    rw [if_pos henabled, if_pos henabled, hfound, hfull]
  rw [serve, serve, hsame]

/-- The calls on one bucket. -/
def callsAt (times : List ℚ) : List (String × ℚ) := times.map fun t => ("key::ip", t)

theorem timesOf_callsAt (times : List ℚ) : timesOf "key::ip" (callsAt times) = times := by
  unfold timesOf callsAt
  rw [List.filter_eq_self.2 fun call hcall => ?_, List.map_map]
  · exact List.map_id _
  · obtain ⟨t, -, rfl⟩ := List.mem_map.1 hcall
    exact decide_eq_true rfl

/-- If two windows do not fill a bucket, it can be emptied twice too early. -/
theorem twice_emptied (h : s.Positive) (henabled : s.enabled = true) (hfills : ¬ s.Fills) : ¬ s.Bounded := by
  intro hbounded
  obtain ⟨n, hn⟩ : ∃ n : ℕ, (n : ℚ) = s.capacity := by
    have hsum : 0 ≤ s.requestsPerWindow + s.burst := by
      have := h.requests
      have := h.burst
      omega
    refine ⟨(s.requestsPerWindow + s.burst).toNat, ?_⟩
    unfold capacity
    rw [← Int.toNat_of_nonneg hsum]
    rfl
  have hpos : n ≠ 0 := by
    rintro rfl
    have := h.capacity
    rw [← hn] at this
    norm_num at this
  have hrate := h.rate
  have hroom : s.windowSeconds * 2 < s.capacity / s.ratePerSecond := by
    rw [lt_div_iff₀ hrate]
    exact not_le.1 hfills
  obtain ⟨t, hidle, hearly⟩ := exists_between hroom
  have hwindow := h.window
  have hsorted : (List.replicate n 0 ++ List.replicate n t).Pairwise (· ≤ ·) := by
    refine List.pairwise_append.2 ⟨List.pairwise_replicate.2 (.inr le_rfl), List.pairwise_replicate.2 (.inr le_rfl), ?_⟩
    intro a ha b hb
    rw [List.eq_of_mem_replicate ha, List.eq_of_mem_replicate hb]
    linarith
  have hcount : allowedWithin 0 (0 + t) (s.serve none (List.replicate n 0 ++ List.replicate n t)) = n + n := by
    obtain ⟨m, rfl⟩ := Nat.exists_eq_succ_of_ne_zero hpos
    have hfirst : s.serve none (List.replicate (m + 1) 0 ++ List.replicate (m + 1) t) =
        s.serve (some ⟨((m + 1 : ℕ) : ℚ), 0⟩) (List.replicate (m + 1) 0 ++ List.replicate (m + 1) t) := by
      rw [hn]
      exact serve_full henabled rfl hwindow _
    have hsecond : s.serve (some ⟨0, 0⟩) (List.replicate (m + 1) t) =
        s.serve (some ⟨((m + 1 : ℕ) : ℚ), t⟩) (List.replicate (m + 1) t ++ []) := by
      rw [hn, List.append_nil]
      have hidle' : s.found (some ⟨0, 0⟩) t = ⟨s.capacity, t⟩ := if_pos (by dsimp only; linarith)
      exact serve_full henabled hidle' hwindow _
    rw [hfirst, serve_drain h henabled le_rfl (by linarith) _ hn.le, hsecond, serve_drain h henabled (by linarith) (by linarith) _ hn.le]
    simp only [serve, allowedWithin, List.countP_nil, Nat.zero_add]
  have hover := hbounded "key::ip" (callsAt (List.replicate n 0 ++ List.replicate n t)) (by rw [timesOf_callsAt]; exact hsorted) 0 t
    (by linarith)
  rw [answers_eq, timesOf_callsAt, hcount] at hover
  rw [lt_div_iff₀ hrate] at hearly
  have hcap : (s.requestsPerWindow : ℚ) + s.burst = n := by
    rw [hn]
    unfold capacity
    push_cast
    rfl
  push_cast at hover
  linarith

/-- A limiter that is off limits nothing. -/
theorem serve_disabled (hoff : s.enabled ≠ true) (b : Option Bucket) (times : List ℚ) :
    s.serve b times = times.map fun t => { time := t, allowed := true, retryAfter := 0 } := by
  induction times generalizing b with
  | nil => rfl
  | cons now times ih =>
    have hconsume : s.consume b now = (b, { time := now, allowed := true, retryAfter := 0 }) := if_neg hoff
    rw [serve, hconsume, List.map_cons]
    exact congrArg _ (ih b)

theorem disabled_unbounded (h : s.Positive) (hoff : s.enabled ≠ true) : ¬ s.Bounded := by
  intro hbounded
  set n := (s.requestsPerWindow + s.burst).toNat with hn
  have hover := hbounded "key::ip" (callsAt (List.replicate (n + 1) 0))
    (by rw [timesOf_callsAt]; exact List.pairwise_replicate.2 (.inr le_rfl)) 0 0 le_rfl
  have hcount : allowedWithin 0 (0 + 0) (s.serve none (List.replicate (n + 1) 0)) = n + 1 := by
    rw [serve_disabled hoff, List.map_replicate]
    unfold allowedWithin
    rw [List.countP_replicate, if_pos (by simp)]
  rw [answers_eq, timesOf_callsAt, hcount] at hover
  have hsum : ((n : ℤ) : ℚ) = ((s.requestsPerWindow + s.burst : ℤ) : ℚ) := by
    have := h.requests
    have := h.burst
    rw [hn, Int.toNat_of_nonneg (by omega)]
  push_cast at hover hsum
  linarith

/-- **A limiter with positive settings keeps the rate over every interval, and its promise to those it denies, if and only if it is on
and two windows fill a bucket.** -/
theorem limiter_iff (s : RateLimitSettings) (h : s.Positive) : s.Bounded ∧ s.RetryKept ↔ s.enabled = true ∧ s.Fills := by
  have hnew : s.Stands none := nofun
  constructor
  · rintro ⟨hbounded, -⟩
    have hon : s.enabled = true := by
      by_contra hoff
      exact disabled_unbounded h hoff hbounded
    exact ⟨hon, not_not.1 fun hfills => twice_emptied h hon hfills hbounded⟩
  · rintro ⟨hon, hfills⟩
    constructor
    · intro bucketId calls hsorted start length hlength
      have hle := @allowed_from s h hon hfills _ none hnew hsorted (fun _ hx => nomatch hx) start length hlength
      rw [answers_eq]
      unfold capacity at hle
      push_cast at hle
      exact hle
    · intro bucketId calls hsorted pre denied next post hserve hdenied hwait
      rw [answers_eq] at hserve
      exact retry_allowed h hon hnew hsorted (fun _ hx => nomatch hx) hserve hdenied hwait

end RateLimitSettings

/-- One request each second, with a burst of ten. -/
def smallWindow : RateLimitSettings := { requestsPerWindow := 1, windowSeconds := 1, burst := 10 }

theorem limiter_iff_default : RateLimitSettings.Bounded {} ∧ RateLimitSettings.RetryKept {} := by
  refine (RateLimitSettings.limiter_iff {} ⟨by decide, by decide, by norm_num⟩).2 ⟨rfl, ?_⟩
  norm_num [RateLimitSettings.Fills, RateLimitSettings.capacity, RateLimitSettings.ratePerSecond]

/-- Twenty-two calls in 2.1 seconds, where thirteen are promised. -/
theorem idle_bucket_full : ¬ ∀ s : RateLimitSettings, s.Positive → s.enabled = true → s.Bounded ∧ s.RetryKept := by
  intro hall
  have hpositive : smallWindow.Positive := ⟨by decide, by decide, by norm_num [smallWindow]⟩
  have hbounded := (hall smallWindow hpositive rfl).1 "key::ip"
    (RateLimitSettings.callsAt (List.replicate 11 0 ++ List.replicate 11 (21 / 10))) (by decide +kernel) 0 (21 / 10) (by norm_num)
  exact absurd hbounded (by decide +kernel)

end Umd.Api
