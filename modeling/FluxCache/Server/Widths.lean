import FluxCache.Server.Main

/-!
# Numbers that do not fit

A request can name any number of seconds that `Atoi` accepts, and `SET` any number of arguments.
Both go into fields of a fixed width. A number of seconds becomes a number of nanoseconds of 64 bits
and wraps above 9223372036 seconds: the deadline that `SET` and `EXPIRE` then give lies in the past,
or before the deadline of fewer seconds. The write-ahead log has two bytes for the number of
arguments and four for the length of each, and a command that does not fit is not read back.
-/

set_option autoImplicit false
set_option relaxedAutoImplicit false

namespace FluxCache.Server

open Foundation Store Resp Network Persistence

/-! ### Deadlines -/

/-- A command that can give its key a deadline. -/
inductive DeadlineCommand
  | set (key val : Value) (options : List Value)
  | expire (key sec : Value)

namespace DeadlineCommand

def key : DeadlineCommand → GoString
  | .set key _ _ => key.bulk
  | .expire key _ => key.bulk

/-- The number of seconds, if the command has a valid one. -/
def seconds : DeadlineCommand → Option ℤ
  | .set _ _ options => expireOption options
  | .expire _ sec => (parseInt sec.bulk).toOption

section Run

variable {σ : Type} [StoreInterface σ] {env : Environment} {t : TTLStore σ}

def run (env : Environment) (t : TTLStore σ) : DeadlineCommand → Value × TTLStore σ
  | .set key val options => setHandler env (key :: val :: options) t
  | .expire key sec => expireHandler env [key, sec] t

/-- The command takes effect: a `SET` does not make the store evict its key, and an `EXPIRE` finds
it. -/
def TakesEffect (env : Environment) (t : TTLStore σ) : DeadlineCommand → Prop
  | .set key val options => key.bulk ∈ (run env t (.set key val options)).2.allKeys
  | .expire key sec => (run env t (.expire key sec)).1 = .ofInteger 1

/-- The deadline that the key of a command has after it. -/
def deadline (env : Environment) (t : TTLStore σ) (c : DeadlineCommand) : Option Time :=
  (c.run env t).2.expireAt.lookup c.key

/-- A deadline is the time of the command and the seconds as a duration. -/
theorem deadline_eq {c : DeadlineCommand} {sec : ℤ} (hsec : c.seconds = some sec)
    (heffect : c.TakesEffect env t) :
    c.deadline env t = some (env.now t.requests + ofSeconds sec) := by
  cases c with
  | set key val options =>
    have hrun : (run env t (.set key val options)).2 =
        t.setWithTTL env key.bulk val.bulk (ofSeconds sec) := by
      rw [run, setHandler, show expireOption options = some sec from hsec]
    rw [TakesEffect, hrun] at heffect
    rw [deadline, hrun]
    let after := (((t.setDeadline env key.bulk (ofSeconds sec)).writeInner
      (.set key.bulk val.bulk)).track env key.bulk)
    have hafter : after.expireAt.lookup key.bulk = some (env.now t.requests + ofSeconds sec) :=
      Finmap.lookup_insert t.expireAt
    obtain ⟨requests, hevict | ⟨victim, hevict⟩⟩ := after.evictIfNeeded_cases env
    · show (after.evictIfNeeded env).expireAt.lookup key.bulk = _
      rw [hevict]
      exact hafter
    · -- A victim is not tracked any more, so it is another key.
      have hmem : key.bulk ∈ (after.evictIfNeeded env).allKeys := heffect
      rw [hevict] at hmem
      show (after.evictIfNeeded env).expireAt.lookup key.bulk = _
      rw [hevict]
      exact (Finmap.lookup_erase_ne (Finset.mem_erase.mp hmem).1).trans hafter
  | expire key arg =>
    have hparse : parseInt arg.bulk = .ok sec := by
      have hoption : (parseInt arg.bulk).toOption = some sec := hsec
      cases hresult : parseInt arg.bulk with
      | error err =>
        rw [hresult] at hoption
        cases hoption
      | ok n =>
        rw [hresult] at hoption
        rw [Option.some.inj hoption]
    have hrun : run env t (.expire key arg) = (t.expire env key.bulk (ofSeconds sec)).map
        (fun ok ↦ .ofInteger (if ok then 1 else 0)) id := by
      rw [run, expireHandler, hparse]
    rw [TakesEffect, hrun] at heffect
    rw [deadline, hrun]
    unfold TTLStore.expire at heffect ⊢
    split
    · exact Finmap.lookup_insert t.expireAt
    · rename_i hmissing
      rw [if_neg hmissing] at heffect
      have hnum : (0 : ℤ) = 1 := congrArg Value.num heffect
      exact absurd hnum (by decide)

end Run

end DeadlineCommand

/-- The largest number of seconds that a duration can hold. -/
def maxSeconds : ℤ := 9223372036

theorem ofSeconds_of_le {sec : ℤ} (hpos : 0 < sec) (hle : sec ≤ maxSeconds) :
    ofSeconds sec = sec * 10 ^ 9 := by
  unfold maxSeconds at hle
  exact wrap64_eq_self_iff.mpr (by omega)

/-- Deadlines of commands with at most so many seconds lie ahead of the time of the command. -/
def LieAhead (bound : ℤ) : Prop :=
  ∀ (σ : Type) [StoreInterface σ] (env : Environment) (t : TTLStore σ) (c : DeadlineCommand)
    (sec : ℤ), c.seconds = some sec → 0 < sec → sec ≤ bound → c.TakesEffect env t →
      ∃ exp, c.deadline env t = some exp ∧ env.now t.requests < exp

/-- Of two commands on one key at one time, with at most so many seconds, the one with fewer seconds
does not give the later deadline. -/
def Ordered (bound : ℤ) : Prop :=
  ∀ (σ : Type) [StoreInterface σ] (env : Environment) (t : TTLStore σ) (c c' : DeadlineCommand)
    (sec sec' : ℤ), c.key = c'.key → c.seconds = some sec → c'.seconds = some sec' → 0 < sec →
      sec ≤ sec' → sec' ≤ bound → c.TakesEffect env t → c'.TakesEffect env t →
        ∀ exp ∈ c.deadline env t, ∀ exp' ∈ c'.deadline env t, exp ≤ exp'

section TooLong

/-- The options `EX 9223372037`. -/
def tooLong : List Value := [.ofBulk (text "EX"), .ofBulk (text "9223372037")]

/-- `SET k v EX 9223372037`. -/
def setTooLong : DeadlineCommand := .set (.ofBulk (text "k")) (.ofBulk (text "v")) tooLong

theorem seconds_setTooLong : setTooLong.seconds = some (maxSeconds + 1) := by decide

theorem takesEffect_setTooLong : setTooLong.TakesEffect stillClock (.new MapStore.new) :=
  Finset.mem_insert_self (text "k") ∅

theorem ofSeconds_tooLong : ofSeconds (maxSeconds + 1) = -9223372036709551616 := rfl

end TooLong

/-- The expiry arithmetic is right for all numbers of seconds up to a bound exactly if a duration
can hold the bound. -/
theorem deadlines_ahead_iff (bound : ℤ) :
    LieAhead bound ∧ Ordered bound ↔ bound ≤ maxSeconds := by
  constructor
  · rintro ⟨hahead, -⟩
    by_contra hbound
    obtain ⟨exp, hexp, hlt⟩ := hahead MapStore stillClock (.new .new) setTooLong (maxSeconds + 1)
      seconds_setTooLong (by decide) (Int.not_le.mp hbound) takesEffect_setTooLong
    rw [DeadlineCommand.deadline_eq seconds_setTooLong takesEffect_setTooLong,
      ofSeconds_tooLong] at hexp
    rw [← Option.some.inj hexp] at hlt
    exact absurd hlt (by decide)
  · intro hbound
    refine ⟨fun σ _ env t c sec hsec hpos hle heffect ↦ ?_,
      fun σ _ env t c c' sec sec' _ hsec hsec' hpos hle hle' heffect heffect' exp hexp exp' hexp' ↦
        ?_⟩
    · refine ⟨_, DeadlineCommand.deadline_eq hsec heffect, ?_⟩
      rw [ofSeconds_of_le hpos (hle.trans hbound)]
      exact lt_add_of_pos_right _ (Int.mul_pos hpos (by decide))
    · rw [DeadlineCommand.deadline_eq hsec heffect, Option.mem_some] at hexp
      rw [DeadlineCommand.deadline_eq hsec' heffect', Option.mem_some] at hexp'
      rw [← hexp, ← hexp', ofSeconds_of_le hpos (hle.trans (hle'.trans hbound)),
        ofSeconds_of_le (hpos.trans_le hle) (hle'.trans hbound)]
      exact Int.add_le_add_left (Int.mul_le_mul_of_nonneg_right hle (by decide)) _

/-- The deadlines of `SET k v EX 9223372037` and of `EXPIRE k 9223372037` lie 292 years before the
commands. -/
theorem deadlines_in_past :
    stillClock.now 0 = 0 ∧
      (setHandler stillClock (.ofBulk (text "k") :: .ofBulk (text "v") :: tooLong)
        (.new MapStore.new)).2.expireAt.lookup (text "k") = some (-9223372036709551616) ∧
      (expireHandler stillClock [.ofBulk (text "k"), .ofBulk (text "9223372037")]
        (setHandler stillClock [.ofBulk (text "k"), .ofBulk (text "v")]
          (.new MapStore.new)).2).2.expireAt.lookup (text "k") = some (-9223372036709551616) :=
  ⟨rfl, rfl, rfl⟩

/-! ### Logged commands -/

section Logged

variable {σ : Type} [StoreInterface σ]

/-- The command that `onWrite` logs of a `SET`. -/
def setCommand (args : List Value) : Command := ⟨text "SET", args.map Value.bulk⟩

/-- A `SET` is accepted with two arguments or more. -/
theorem reply_setHandler_iff (env : Environment) (args : List Value) (t : TTLStore σ) :
    (setHandler env args t).1 = .ofString (text "OK") ↔ 2 ≤ args.length := by
  match args with
  | [] => exact iff_of_false (fun h ↦ by cases congrArg Value.type h) (by decide)
  | [_] => exact iff_of_false (fun h ↦ by cases congrArg Value.type h) (by simp)
  | _ :: _ :: options =>
    rw [setHandler]
    cases expireOption options with
    | none => exact iff_of_true rfl (Nat.le_add_left 2 options.length)
    | some sec => exact iff_of_true rfl (Nat.le_add_left 2 options.length)

/-- Every `SET` with two arguments or more is accepted, and it is read back from the log as it was
exactly if there are less than 2 ^ 16 arguments and each of them is shorter than 2 ^ 32. -/
theorem set_logged_iff (mapUpper : GoString → GoString) (env : Environment) (args : List Value)
    (server : ServerState σ WAL) (rest : GoString) :
    ((setHandler env args server.store).1 = .ofString (text "OK") ↔ 2 ≤ args.length) ∧
      (onWrite (δ := GoString) (text "SET") args server).log =
        server.log.write (setCommand args) ∧
      (unmarshalCommand mapUpper (marshalCommand (setCommand args) ++ rest) =
          (setCommand args, rest) ↔
        args.length < 2 ^ 16 ∧ ∀ arg ∈ args, arg.bulk.length < 2 ^ 32) := by
  refine ⟨reply_setHandler_iff env args server.store, ?_, ?_⟩
  · rw [onWrite, if_pos (Or.inl rfl)]
    rfl
  · have hne : (setCommand args).name ≠ [] := (by decide : text "SET" ≠ [])
    have hupper : IsUpper (setCommand args).name := (by decide : IsUpper (text "SET"))
    have hname : (setCommand args).name.length < 2 ^ 16 := (by decide : 3 < 2 ^ 16)
    have hlength : (setCommand args).args.length = args.length := List.length_map Value.bulk
    rw [unmarshalCommand_marshal_iff mapUpper hne hupper hname, ← hlength]
    constructor
    · intro hfits
      exact ⟨hfits.args_lt, fun arg harg ↦ hfits.arg_lt arg.bulk (List.mem_map_of_mem harg)⟩
    · rintro ⟨hargs, harg⟩
      exact ⟨hname, hargs, List.forall_mem_map.mpr harg⟩

/-- 65536 empty arguments. -/
def tooMany : List Value := List.replicate (2 ^ 16) (.ofBulk [])

/-- A `SET` with 65536 arguments is accepted, and the number in its record is 0. The decoder finds
a `SET` without arguments and goes on in the middle of the record. -/
theorem set_misread :
    (setHandler stillClock tooMany (.new MapStore.new)).1 = .ofString (text "OK") ∧
      ∀ (mapUpper : GoString → GoString) (rest : GoString),
        unmarshalCommand mapUpper (marshalCommand (setCommand tooMany) ++ rest) =
          (⟨text "SET", []⟩, (setCommand tooMany).args.flatMap (block 4) ++ rest) := by
  have hlength : (setCommand tooMany).args.length = 2 ^ 16 := by
    rw [setCommand, List.length_map, tooMany, List.length_replicate]
  have hwraps : toBytes 2 (2 ^ 16) = toBytes 2 0 := by decide
  refine ⟨(reply_setHandler_iff stillClock tooMany _).mpr ?_, fun mapUpper rest ↦ ?_⟩
  · rw [tooMany, List.length_replicate]
    decide
  · have hrecord : marshalCommand (setCommand tooMany) =
        marshalCommand ⟨text "SET", []⟩ ++ (setCommand tooMany).args.flatMap (block 4) := by
      have hname : (setCommand tooMany).name = text "SET" := rfl
      simp only [marshalCommand, hname, hlength, hwraps, List.length_nil, List.flatMap_nil,
        List.append_nil, List.append_assoc]
    have hempty : Command.Fits ⟨text "SET", []⟩ := by decide
    rw [hrecord, List.append_assoc, unmarshalCommand_marshal mapUpper hempty, Command.upper,
      toUpper_eq_self mapUpper (by decide)]

end Logged

end FluxCache.Server
