import Mathlib.Data.String.Basic
import Suture.Foundation.Codec
import Suture.Foundation.SortedMap
import Suture.Foundation.SortedSet
import Suture.Foundation.Windows

/-!
# Rate limits

The counters in front of the request handlers. The hub counts the pushes, the pulls and the new
tokens of an address; the platform counts the requests of a user, or of an address that did not
log in. Times are in nanoseconds.
-/

namespace Suture.Hub
set_option autoImplicit false
open Foundation Windows

def second : Nat := 1000000000

/-- How often something was let in, and when its window started. -/
abbrev RateLimits := SortedMap String (Nat × Nat)

/-! ### The hub -/

structure RateLimitConfig where
  maxPushesPerHour : Nat := 100
  maxPullsPerHour : Nat := 1000
  maxTokenCreatesPerMinute : Nat := 5
  rateLimitWindow : Nat := 60 * second

variable (cfg : RateLimitConfig)

def rateLimitOf (key : String) : Option Nat :=
  if key = "push" then some cfg.maxPushesPerHour
  else if key = "pull" then some cfg.maxPullsPerHour
  else if key = "token_create" then some cfg.maxTokenCreatesPerMinute
  else none

def fullKey (ip key : String) : String := key ++ ":" ++ ip

/-- The error is how many seconds to wait. -/
def checkRateLimit (now : Nat) (ip key : String) (limits : RateLimits) :
    Except Nat Unit × RateLimits :=
  let window := cfg.rateLimitWindow
  if window = 0 then (.ok (), limits)
  else
    let limits := limits.retain fun _ e => decide (now - e.2 < window)
    match rateLimitOf cfg key with
    | none => (.ok (), limits)
    | some limit =>
      match limits.get (fullKey ip key) with
      | some (count, windowStart) =>
        if limit ≤ count then
          let remaining := window - (now - windowStart)
          (.error (max (remaining / second) 1), limits)
        else (.ok (), limits.insert (fullKey ip key) (count + 1, windowStart))
      | none => (.ok (), limits.insert (fullKey ip key) (1, now))

/-- Whether a request of an address is let in. -/
def hubAsks (now : Nat) (r : String × String) (limits : RateLimits) : Bool × RateLimits :=
  ((checkRateLimit cfg now r.1 r.2 limits).1.isOk, (checkRateLimit cfg now r.1 r.2 limits).2)

def hubKey (r : String × String) : Option String :=
  (rateLimitOf cfg r.2).map fun _ => fullKey r.1 r.2

def hubLimit (r : String × String) : Nat := (rateLimitOf cfg r.2).getD 0

theorem trimmed_retain {W : Nat} (hW : 0 < W) (now : Nat) (limits : RateLimits) (k : String) :
    Trimmed W now (limits.get k) ((limits.retain fun _ e => decide (now - e.2 < W)).get k) := by
  rw [SortedMap.get_retain]
  cases hget : limits.get k with
  | none => exact .inl rfl
  | some e =>
    obtain ⟨count, start⟩ := e
    by_cases hlive : now - start < W
    · exact .inl (by simp [hlive])
    · exact .inr ⟨by simpa using hlive, count, start, rfl, by omega⟩

theorem keeps_hub (hW : 0 < cfg.rateLimitWindow) :
    Keeps cfg.rateLimitWindow (hubAsks cfg) (hubKey cfg) (hubLimit cfg) SortedMap.get where
  own now r limits k hkey := by
    obtain ⟨limit, hlimit, rfl⟩ := Option.map_eq_some_iff.mp hkey
    refine ⟨_, trimmed_retain hW now limits _, ?_⟩
    simp only [hubAsks, hubLimit, checkRateLimit, hlimit, if_neg (show ¬cfg.rateLimitWindow = 0 by omega)]
    cases hget : (limits.retain fun _ e => decide (now - e.2 < cfg.rateLimitWindow)).get
        (fullKey r.1 r.2) with
    | none => simp [allow, Except.isOk, Except.toBool]
    | some e =>
      obtain ⟨count, start⟩ := e
      have hlive : now - start < cfg.rateLimitWindow := by
        rw [SortedMap.get_retain] at hget
        have := (Option.filter_eq_some_iff.mp hget).2
        simpa using this
      rw [allow, if_neg (by omega)]
      by_cases hroom : count < limit
      · simp [hroom, Nat.not_le.mpr hroom, Except.isOk, Except.toBool]
      · simp [hroom, Nat.not_lt.mp hroom, hget, Except.isOk, Except.toBool]
  other now r limits k hkey := by
    have htrim := trimmed_retain hW now limits k
    simp only [hubAsks, checkRateLimit, if_neg (show ¬cfg.rateLimitWindow = 0 by omega)]
    cases hlimit : rateLimitOf cfg r.2 with
    | none => exact htrim
    | some limit =>
      have hne : k ≠ fullKey r.1 r.2 := fun h => hkey (by simp [hubKey, hlimit, h])
      simp only
      split
      · split
        · exact htrim
        · rwa [SortedMap.get_insert, if_neg hne]
      · rwa [SortedMap.get_insert, if_neg hne]

theorem noColon {limit : Nat} {key : String} (h : rateLimitOf cfg key = some limit) :
    ':' ∉ key.toList := by
  have hkey : key = "push" ∨ key = "pull" ∨ key = "token_create" := by
    by_contra hno
    simp only [not_or] at hno
    simp [rateLimitOf, hno] at h
  rcases hkey with rfl | rfl | rfl <;> decide

theorem fullKey_inj {limit limit' : Nat} {ip ip' key key' : String}
    (h : rateLimitOf cfg key = some limit) (h' : rateLimitOf cfg key' = some limit')
    (heq : fullKey ip key = fullKey ip' key') : ip = ip' ∧ key = key' := by
  have hlists : key.toList ++ ':' :: ip.toList = key'.toList ++ ':' :: ip'.toList := by
    simpa [fullKey] using congrArg String.toList heq
  obtain ⟨hkeys, hips⟩ := append_stop_inj (by
    rw [List.count_eq_zero.mpr (noColon cfg h), List.count_eq_zero.mpr (noColon cfg h')]) hlists
  exact ⟨String.toList_inj.mp hips, String.toList_inj.mp hkeys⟩

theorem hubKey_iff {limit : Nat} {ip key : String} (hkey : rateLimitOf cfg key = some limit)
    (r : String × String) : hubKey cfg r = some (fullKey ip key) ↔ r = (ip, key) := by
  obtain ⟨ip', key'⟩ := r
  constructor
  · intro h
    obtain ⟨limit', hlimit', heq⟩ := Option.map_eq_some_iff.mp h
    obtain ⟨rfl, rfl⟩ := fullKey_inj cfg hlimit' hkey heq
    rfl
  · rintro ⟨⟩
    simp [hubKey, hkey]

/-- In any stretch as long as the window, an address is let in at most twice as often as its
limit says, and twice if the limit is zero. -/
theorem hub_rate_bounded {limit : Nat} (hW : 0 < cfg.rateLimitWindow) {key : String}
    (hkey : rateLimitOf cfg key = some limit) (ip : String) {requests : List (Nat × String × String)}
    (hclock : (requests.map Prod.fst).Pairwise (· ≤ ·)) (t : Nat) :
    (served (hubAsks cfg) .empty requests).1.countP (fun r => decide (r.2 = (ip, key)) &&
      decide (t ≤ r.1 ∧ r.1 < t + cfg.rateLimitWindow)) ≤ 2 * max limit 1 := by
  have hrate := (keeps_hub cfg hW).rate hW (Nat.le_max_right limit 1)
    (SortedMap.get_empty (fullKey ip key)) hclock (fun r _ hr => ?_) t
  · simpa only [hubKey_iff cfg hkey] using hrate
  · rw [(hubKey_iff cfg hkey _).mp hr, hubLimit, hkey]
    exact Nat.le_max_left limit 1

theorem hub_rate_bounded_push :
    (served (hubAsks {}) .empty [(0, "10.0.0.1", "push"), (1, "10.0.0.1", "push")]).1.countP
      (fun r => decide (r.2 = ("10.0.0.1", "push")) && decide (0 ≤ r.1 ∧ r.1 < 0 + 60 * second)) ≤
        2 * max 100 1 :=
  hub_rate_bounded {} (by decide) rfl "10.0.0.1" (by simp) 0

/-- An address is refused only when it was let in that often within the window that ends now. -/
theorem hub_refuses_full {limit : Nat} (hW : 0 < cfg.rateLimitWindow) {ip key : String}
    (hkey : rateLimitOf cfg key = some limit) {requests : List (Nat × String × String)}
    (hclock : (requests.map Prod.fst).Pairwise (· ≤ ·)) {now : Nat} (hnow : ∀ r ∈ requests, r.1 ≤ now)
    {wait : Nat} (hrefused : (checkRateLimit cfg now ip key
      (served (hubAsks cfg) .empty requests).2).1 = .error wait) :
    max limit 1 ≤ (served (hubAsks cfg) .empty requests).1.countP (fun r =>
      decide (r.2 = (ip, key)) && decide (now < r.1 + cfg.rateLimitWindow)) := by
  have hrefused' : (hubAsks cfg now (ip, key) (served (hubAsks cfg) .empty requests).2).1 = false := by
    simp [hubAsks, hrefused, Except.isOk, Except.toBool]
  have hfull := (keeps_hub cfg hW).refused hW (SortedMap.get_empty (fullKey ip key)) hclock hnow
    ((hubKey_iff cfg hkey (ip, key)).mpr rfl) hrefused'
  simpa only [hubKey_iff cfg hkey, hubLimit, hkey, Option.getD_some] using hfull

theorem hub_refuses_full_once :
    max 1 1 ≤ (served (hubAsks { maxPullsPerHour := 1 }) .empty [(0, "10.0.0.1", "pull")]).1.countP
      (fun r => decide (r.2 = ("10.0.0.1", "pull")) && decide (5 < r.1 + 60 * second)) :=
  hub_refuses_full { maxPullsPerHour := 1 } (by decide) rfl (by simp) (by simp)
    (show _ = Except.error 59 from by decide +kernel)

/-! ### The platform -/

def windowDuration : Nat := 60 * second

/-- Whether the request is let in, how many more are, and the seconds until the next window. -/
def check (now : Nat) (key : String) (limit : Nat) (entries : RateLimits) :
    (Bool × Nat × Nat) × RateLimits :=
  match entries.get key with
  | some (count, windowStart) =>
    if windowDuration ≤ now - windowStart then
      ((true, limit - 1, 60), entries.insert key (1, now))
    else if count < limit then
      let count := count + 1
      ((true, limit - count, 60 - (now - windowStart) / second),
        entries.insert key (count, windowStart))
    else ((false, 0, 60 - (now - windowStart) / second), entries)
  | none => ((true, limit - 1, 60), entries.insert key (1, now))

def cleanup (now : Nat) (entries : RateLimits) : RateLimits :=
  entries.retain fun _ e => decide (now - e.2 < 120 * second)

def tierRateLimit (tier : String) : Nat :=
  if tier = "pro" then 300 else if tier = "enterprise" then 3000 else 30

structure Claims where
  sub : String
  email : String
  tier : String

/-- A request with the claims of who sent it and the `x-forwarded-for` header, or a cleanup. -/
inductive PlatformCall where
  | request (claims : Option Claims) (forwardedFor : Option String)
  | cleanup

/-- The first of the addresses that a request was forwarded for. -/
def forwardedIp (header : Option String) : String :=
  (header.map fun h => String.ofList (h.toList.takeWhile (· ≠ ','))).getD "unknown"

/-- The key that a request is counted under, and its limit. -/
def rateLimitKey (claims : Option Claims) (forwardedFor : Option String) : String × Nat :=
  match claims with
  | none => ("ip:" ++ forwardedIp forwardedFor, 10)
  | some claims => ("user:" ++ claims.sub, tierRateLimit claims.tier)

def platformAsks (now : Nat) (call : PlatformCall) (entries : RateLimits) : Bool × RateLimits :=
  match call with
  | .request claims forwardedFor =>
    let r := check now (rateLimitKey claims forwardedFor).1 (rateLimitKey claims forwardedFor).2 entries
    (r.1.1, r.2)
  | .cleanup => (true, cleanup now entries)

def PlatformCall.key : PlatformCall → Option String
  | .request claims forwardedFor => some (rateLimitKey claims forwardedFor).1
  | .cleanup => none

def PlatformCall.limit : PlatformCall → Nat
  | .request claims forwardedFor => (rateLimitKey claims forwardedFor).2
  | .cleanup => 0

theorem keeps_platform :
    Keeps windowDuration platformAsks PlatformCall.key PlatformCall.limit SortedMap.get where
  own now call entries k hkey := by
    cases call with
    | cleanup => cases hkey
    | request claims forwardedFor =>
      obtain rfl := Option.some.inj hkey
      refine ⟨_, .inl rfl, ?_⟩
      have hW : 0 < windowDuration := by decide
      simp only [platformAsks, PlatformCall.limit, check]
      cases hget : entries.get (rateLimitKey claims forwardedFor).1 with
      | none => simp [allow]
      | some e =>
        obtain ⟨count, start⟩ := e
        by_cases hend : windowDuration ≤ now - start
        · simp [allow, hend, show start + windowDuration ≤ now by omega]
        · by_cases hroom : count < (rateLimitKey claims forwardedFor).2
          · simp [allow, hend, hroom, show ¬start + windowDuration ≤ now by omega]
          · simp [allow, hend, hroom, hget, show ¬start + windowDuration ≤ now by omega]
  other now call entries k hkey := by
    cases call with
    | cleanup =>
      rcases trimmed_retain (W := 120 * second) (by decide) now entries k with
        hsame | ⟨hnone, count, start, hget, hend⟩
      · exact .inl hsame
      · refine .inr ⟨hnone, count, start, hget, Nat.le_trans ?_ hend⟩
        exact Nat.add_le_add_left (by decide) start
    | request claims forwardedFor =>
      have hne : k ≠ (rateLimitKey claims forwardedFor).1 := fun h => hkey (by rw [h]; rfl)
      refine .inl ?_
      simp only [platformAsks, check]
      split
      · split
        · rw [SortedMap.get_insert, if_neg hne]
        · split
          · rw [SortedMap.get_insert, if_neg hne]
          · rfl
      · rw [SortedMap.get_insert, if_neg hne]

/-- Within any minute, at most twice the limit of a user or address gets through, however often
the table is cleaned up. -/
theorem platform_rate_bounded {calls : List (Nat × PlatformCall)} {k : String} {M : Nat}
    (hclock : (calls.map Prod.fst).Pairwise (· ≤ ·)) (hM : 1 ≤ M)
    (hlimit : ∀ c ∈ calls, c.2.key = some k → c.2.limit ≤ M) (t : Nat) :
    (served platformAsks .empty calls).1.countP (fun c => decide (c.2.key = some k) &&
      decide (t ≤ c.1 ∧ c.1 < t + 60 * second)) ≤ 2 * M :=
  keeps_platform.rate (by decide) hM (SortedMap.get_empty k) hclock hlimit t

theorem platform_rate_bounded_anonymous :
    (served platformAsks .empty [(0, .request none (some "10.0.0.1,10.0.0.2")), (7, .cleanup)]).1.countP
      (fun c => decide (c.2.key = some "ip:10.0.0.1") && decide (0 ≤ c.1 ∧ c.1 < 0 + 60 * second)) ≤
        2 * 10 :=
  platform_rate_bounded (by simp) (by decide) (by decide +kernel) 0

/-- A caller is refused only when it got through that often within the minute that ends now. -/
theorem platform_refuses_full {calls : List (Nat × PlatformCall)} {claims : Option Claims}
    {forwardedFor : Option String} (hclock : (calls.map Prod.fst).Pairwise (· ≤ ·)) {now : Nat}
    (hnow : ∀ c ∈ calls, c.1 ≤ now)
    (hrefused : (platformAsks now (.request claims forwardedFor)
      (served platformAsks .empty calls).2).1 = false) :
    (rateLimitKey claims forwardedFor).2 ≤ (served platformAsks .empty calls).1.countP (fun c =>
      decide (c.2.key = some (rateLimitKey claims forwardedFor).1) &&
        decide (now < c.1 + 60 * second)) :=
  (Nat.le_max_left ..).trans (keeps_platform.refused (by decide) (SortedMap.get_empty _) hclock hnow
    rfl hrefused)

theorem platform_refuses_full_anonymous : 10 ≤
    (served platformAsks .empty (List.replicate 10 (0, .request none none))).1.countP (fun c =>
      decide (c.2.key = some "ip:unknown") && decide (7 < c.1 + 60 * second)) :=
  platform_refuses_full (by decide) (by decide)
    (show (platformAsks 7 (.request none none) _).1 = false by decide +kernel)

end Suture.Hub
