import FluxCache.Foundation.Environment

/-!
# The eviction policies

A policy is told which keys are used and which are gone, and chooses the key to evict among
candidates. The policy for the least recently used key remembers the time of the last use, the one
for the least frequently used key counts the uses, and the other three remember nothing. Three
policies choose by the same loop, which goes through the candidates and keeps the one with the
smallest score so far; a candidate without a score never replaces it (`scan`).
-/

set_option autoImplicit false
set_option relaxedAutoImplicit false

namespace FluxCache.Store

open FluxCache.Foundation

/-- The eviction policies with what they remember. -/
inductive Policy
  | noEviction
  | lru (access : GoMap Time)
  | lfu (freq : GoMap ℕ)
  | random
  | ttl

namespace Policy

/-- `Name`. -/
def name : Policy → GoString
  | noEviction => text "none"
  | lru _ => text "allkeys-lru"
  | lfu _ => text "allkeys-lfu"
  | random => text "allkeys-random"
  | ttl => text "volatile-ttl"

/-- `Record`. The policy for the least recently used key reads the clock. -/
def record (now : Time) (key : GoString) : Policy → Policy
  | noEviction => noEviction
  | lru access => lru (access.insert key now)
  | lfu freq => lfu (freq.insert key ((freq.lookup key).getD 0 + 1))
  | random => random
  | ttl => ttl

/-- `Delete`. -/
def delete (key : GoString) : Policy → Policy
  | noEviction => noEviction
  | lru access => lru (access.erase key)
  | lfu freq => lfu (freq.erase key)
  | random => random
  | ttl => ttl

/-- The loop of `Evict` over the candidates after the first: a candidate with a smaller score
replaces the best one so far. -/
def scan {α : Type} [LT α] [DecidableLT α] (score : GoString → Option α) :
    GoString → α → List GoString → GoString
  | best, _, [] => best
  | best, bestScore, key :: rest =>
    match score key with
    | none => scan score best bestScore rest
    | some s => if s < bestScore then scan score key s rest else scan score best bestScore rest

/-- `Evict` of a policy with scores: the first candidate, with a default for a missing score,
against the others. -/
def evictLowest {α : Type} [LT α] [DecidableLT α] (score : GoString → Option α) (default : α) :
    List GoString → GoString
  | [] => []
  | first :: rest => scan score first ((score first).getD default) rest

/-- `Evict`, with the answers to the request number `i` for the clock and the random draw. The empty
key stands for none. -/
def evict (env : Environment) (i : ℕ) (candidates : List GoString) (expireAt : GoMap Time) :
    Policy → GoString
  | noEviction => []
  | lru access => evictLowest access.lookup zeroTime candidates
  | lfu freq => evictLowest freq.lookup 0 candidates
  | random => candidates.getD (env.draw i candidates.length) []
  | ttl =>
    evictLowest (fun key ↦ (expireAt.lookup key).map fun exp ↦ since exp (env.now i)) 0 candidates

end Policy

end FluxCache.Store
