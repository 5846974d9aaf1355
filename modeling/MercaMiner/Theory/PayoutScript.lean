import MercaMiner.Core.PayoutAddress

/-!
# Which Payout Scripts Are Accepted

The answers to `validateaddress` that give a script, and how all others fail.

Acceptance is inverted check by check. For the failures it is enough that each
reader fails with the exception of this code only: a conversion is always
behind a check of the type, and the script is long enough for every byte that
is read of it, because the hexadecimal reader returns the bytes it was asked
for.

## Main definitions

* `CanonicalAnswer`: An answer that describes a version 2 witness script.
* `CaseVariant`: Two answers that differ in the case of digits only.
* `ThrowsPayout`: A computation fails with the exception of this code only.

## Theorems

* `parseExactHex_ok`: What the hexadecimal reader returns.
* `equalAt_eq`: The comparison is of the bytes at the offset.
* `parsePayout_ok_iff`: Which answers are accepted.
* `parsePayout_throws`: How the others fail.
* `payout_address_exact`: All of this, and that case does not matter.
-/

namespace MercaMiner

open Outcome

/-- An answer about a valid witness address of version 2, whose program has 32
    bytes and whose script pushes the version and then the program. -/
structure CanonicalAnswer (v : Json) (script : Bytes) : Prop where
  object : v.isObject = true
  valid : v.find "isvalid" = some (.boolean true)
  witness : v.find "iswitness" = some (.boolean true)
  version : ∃ number, v.find "witness_version" = some number ∧ number.integer = some 2
  hex : ∃ programHex scriptHex program,
    v.find "witness_program" = some (.string programHex) ∧ programHex.length = 64 ∧
    Hex.decode programHex = some program ∧
    v.find "scriptPubKey" = some (.string scriptHex) ∧ scriptHex.length = 68 ∧
    Hex.decode scriptHex = some script ∧ script = 0x52 :: 0x20 :: program

/-- Two answers alike but for the case of letters in the two texts. -/
structure CaseVariant (v w : Json) : Prop where
  object : w.isObject = v.isObject
  valid : w.find "isvalid" = v.find "isvalid"
  witness : w.find "iswitness" = v.find "iswitness"
  version : w.find "witness_version" = v.find "witness_version"
  hex : ∀ name ∈ ["witness_program", "scriptPubKey"], ∀ s, v.find name = some (.string s) →
    ∃ s', w.find name = some (.string s') ∧ s'.map Hex.lower = s.map Hex.lower

/-- The only failure is the exception of this code. -/
def ThrowsPayout {α : Type} (x : Except PayoutFailure α) : Prop :=
  ∀ e, x = .error e → ∃ what, e = .payoutAddress what

theorem throwsPayout_ok {α : Type} (x : α) : ThrowsPayout (.ok x : Except PayoutFailure α) := by
  intro e h
  exact absurd h (by simp only [reduceCtorEq, not_false_eq_true])

theorem throwsPayout_error {α : Type} (what : Text) :
    ThrowsPayout (.error (.payoutAddress what) : Except PayoutFailure α) := by
  intro e h
  rw [Except.error.injEq] at h
  exact ⟨what, h.symm⟩

theorem throwsPayout_check (condition : Prop) [Decidable condition] (what : Text) :
    ThrowsPayout (check condition (.payoutAddress what)) := by
  intro e h
  exact ⟨what, ((check_error _ _ _).mp h).2.symm⟩

/-- A sequence throws what its two steps throw. The second one starts from
    what the first returned. -/
theorem throwsPayout_bind {α β : Type} (x : Except PayoutFailure α)
    (f : α → Except PayoutFailure β) (hx : ThrowsPayout x)
    (hf : ∀ a, x = .ok a → ThrowsPayout (f a)) : ThrowsPayout (x >>= f) := by
  intro e h
  rcases (bind_error x f e).mp h with hfirst | ⟨a, ha, hsecond⟩
  · exact hx e hfirst
  · exact hf a ha e hsecond

theorem payoutHexDigit_ok (c d : UInt8) : payoutHexDigit c = .ok d ↔ Hex.digit c = some d := by
  unfold payoutHexDigit
  cases Hex.digit c with
  | none => simp only [throwPayout, reduceCtorEq]
  | some x => simp only [Except.ok.injEq, Option.some.injEq]

theorem payoutHexDigit_throws (c : UInt8) : ThrowsPayout (payoutHexDigit c) := by
  unfold payoutHexDigit
  cases Hex.digit c with
  | none => exact throwsPayout_error _
  | some x => exact throwsPayout_ok x

theorem parseExactHexLoop_ok (hex : Text) (heven : hex.length % 2 = 0) :
    ∀ b, parseExactHexLoop hex = .ok b ↔ Hex.decode hex = some b := by
  induction hex using Hex.decode.induct with
  | case1 =>
      intro b
      simp only [parseExactHexLoop, pure_ok, Hex.decode, Option.some.injEq]
  | case2 c => simp only [List.length_singleton, Nat.reduceMod, Nat.one_ne_zero] at heven
  | case3 h l rest ih =>
      intro b
      have hrest : rest.length % 2 = 0 := by
        simp only [List.length_cons] at heven
        omega
      rw [parseExactHexLoop, Hex.decode_cons_cons]
      simp only [bind_ok, pure_ok, payoutHexDigit_ok, ih hrest, Option.bind_eq_some_iff,
        Option.map_eq_some_iff]

theorem parseExactHexLoop_throws (hex : Text) : ThrowsPayout (parseExactHexLoop hex) := by
  induction hex using Hex.decode.induct with
  | case1 => exact throwsPayout_ok []
  | case2 c => exact throwsPayout_ok []
  | case3 h l rest ih =>
      rw [parseExactHexLoop]
      refine throwsPayout_bind _ _ (payoutHexDigit_throws h) fun high _ => ?_
      refine throwsPayout_bind _ _ (payoutHexDigit_throws l) fun low _ => ?_
      exact throwsPayout_bind _ _ ih fun tail _ => throwsPayout_ok _

theorem parseExactHex_ok (value : Json) (n : Nat) (field : String) (b : Bytes) :
    parseExactHex value n field = .ok b ↔
      ∃ hex, value = .string hex ∧ hex.length = n * 2 ∧ Hex.decode hex = some b := by
  simp only [parseExactHex, bind_ok, check_ok, exists_const]
  constructor
  · intro hparts
    rcases hparts with ⟨hstring, hex, hget, hlen, hloop⟩
    cases value with
    | string s =>
        simp only [Json.getString, orTypeError, Except.ok.injEq] at hget
        subst hget
        exact ⟨s, rfl, hlen, (parseExactHexLoop_ok s (by omega) b).mp hloop⟩
    | _ => exact absurd hstring (by simp only [Json.isString, Bool.false_eq_true,
        not_false_eq_true])
  · intro hparts
    rcases hparts with ⟨hex, rfl, hlen, hread⟩
    exact ⟨rfl, hex, rfl, hlen, (parseExactHexLoop_ok hex (by omega) b).mpr hread⟩

theorem parseExactHex_throws (value : Json) (n : Nat) (field : String) :
    ThrowsPayout (parseExactHex value n field) := by
  unfold parseExactHex
  refine throwsPayout_bind _ _ (throwsPayout_check _ _) fun _ hstring => ?_
  -- The conversion is behind the check of the type.
  rw [check_ok] at hstring
  cases value with
  | string s =>
      refine throwsPayout_bind _ _ (throwsPayout_ok s) fun hex _ => ?_
      exact throwsPayout_bind _ _ (throwsPayout_check _ _) fun _ _ => parseExactHexLoop_throws hex
  | _ => exact absurd hstring (by simp only [Json.isString, Bool.false_eq_true, not_false_eq_true])

theorem requireHex_ok (v : Json) (name : String) (n : Nat) (b : Bytes) :
    requireHex v name n = .ok b ↔ ∃ hex, v.find name = some (.string hex) ∧ hex.length = n * 2 ∧
      Hex.decode hex = some b := by
  unfold requireHex
  cases v.find name with
  | none => simp only [throwPayout, reduceCtorEq, false_and, exists_false]
  | some value => simp only [parseExactHex_ok, Option.some.injEq]

theorem requireHex_throws (v : Json) (name : String) (n : Nat) :
    ThrowsPayout (requireHex v name n) := by
  unfold requireHex
  cases v.find name with
  | none => exact throwsPayout_error _
  | some value => exact parseExactHex_throws value n name

/-- The hexadecimal reader returns as many bytes as it was asked for. -/
theorem length_requireHex (v : Json) (name : String) (n : Nat) (b : Bytes)
    (h : requireHex v name n = .ok b) : b.length = n := by
  rcases (requireHex_ok v name n b).mp h with ⟨hex, _, hlen, hread⟩
  have hbytes := Hex.length_decode hex b hread
  omega

/-- What a member that has to be `true` amounts to. -/
theorem requireTrue_ok (value : Json) (missing untrue : PayoutFailure) (u : Unit) :
    (do
      check (value.isBoolean = true) missing
      let b ← orTypeError value.getBool
      check (b = true) untrue) = .ok u ↔ value = .boolean true := by
  simp only [bind_ok, check_ok, exists_const]
  cases value with
  | boolean b => simp only [Json.isBoolean, Json.getBool, orTypeError, Except.ok.injEq, true_and,
      exists_eq_left', Json.boolean.injEq]
  | _ => simp only [Json.isBoolean, Bool.false_eq_true, false_and, reduceCtorEq]

theorem requireTrue_throws (value : Json) (missing untrue : Text) :
    ThrowsPayout (do
      check (value.isBoolean = true) (.payoutAddress missing)
      let b ← orTypeError value.getBool
      check (b = true) (.payoutAddress untrue)) := by
  refine throwsPayout_bind _ _ (throwsPayout_check _ _) fun _ hboolean => ?_
  rw [check_ok] at hboolean
  cases value with
  | boolean b => exact throwsPayout_bind _ _ (throwsPayout_ok b) fun b _ => throwsPayout_check _ _
  | _ => exact absurd hboolean (by simp only [Json.isBoolean, Bool.false_eq_true,
      not_false_eq_true])

theorem requireValid_ok (v : Json) (u : Unit) :
    requireValid v = .ok u ↔ v.find "isvalid" = some (.boolean true) := by
  unfold requireValid
  cases v.find "isvalid" with
  | none => simp only [throwPayout, reduceCtorEq]
  | some value => rw [requireTrue_ok, Option.some.injEq]

theorem requireWitness_ok (v : Json) (u : Unit) :
    requireWitness v = .ok u ↔ v.find "iswitness" = some (.boolean true) := by
  unfold requireWitness
  cases v.find "iswitness" with
  | none => simp only [throwPayout, reduceCtorEq]
  | some value => rw [requireTrue_ok, Option.some.injEq]

/-- The signed conversion of a huge number is negative, so it is never two. -/
theorem requireVersion_ok (v : Json) (u : Unit) :
    requireVersion v = .ok u ↔
      ∃ number, v.find "witness_version" = some number ∧ number.integer = some 2 := by
  unfold requireVersion
  cases v.find "witness_version" with
  | none => simp only [throwPayout, reduceCtorEq, false_and, exists_false]
  | some value =>
      simp only [bind_ok, check_ok, exists_const, Option.some.injEq, exists_eq_left']
      cases value with
      | numberUnsigned n =>
          simp only [Json.isNumberInteger, Bool.true_or, Json.getInt64, orTypeError,
            Except.ok.injEq, true_and, exists_eq_left', Json.integer, Option.some.injEq]
          -- The conversion is undone by the one back, so only two becomes two.
          constructor
          · intro h
            have hn := congrArg Int64.toUInt64 h
            rw [UInt64.toUInt64_toInt64] at hn
            rw [hn]
            rfl
          · intro h
            have hn : n = 2 := UInt64.toNat_inj.mp (Int.ofNat.inj h)
            rw [hn]
            rfl
      | numberInteger n =>
          simp only [Json.isNumberInteger, Bool.true_or, Json.getInt64, orTypeError,
            Except.ok.injEq, true_and, exists_eq_left', Json.integer, Option.some.injEq]
          exact Int64.toInt_inj.symm
      | _ => simp only [Json.isNumberInteger, Json.isNumberUnsigned, Bool.or_self,
          Bool.false_eq_true, false_and, Json.integer, reduceCtorEq]

theorem requireValid_throws (v : Json) : ThrowsPayout (requireValid v) := by
  unfold requireValid
  cases v.find "isvalid" with
  | none => exact throwsPayout_error _
  | some value => exact requireTrue_throws value _ _

theorem requireWitness_throws (v : Json) : ThrowsPayout (requireWitness v) := by
  unfold requireWitness
  cases v.find "iswitness" with
  | none => exact throwsPayout_error _
  | some value => exact requireTrue_throws value _ _

theorem requireVersion_throws (v : Json) : ThrowsPayout (requireVersion v) := by
  unfold requireVersion
  cases v.find "witness_version" with
  | none => exact throwsPayout_error _
  | some value =>
      refine throwsPayout_bind _ _ (throwsPayout_check _ _) fun _ hinteger => ?_
      rw [check_ok] at hinteger
      cases value with
      | numberUnsigned n =>
          exact throwsPayout_bind _ _ (throwsPayout_ok _) fun _ _ => throwsPayout_check _ _
      | numberInteger n =>
          exact throwsPayout_bind _ _ (throwsPayout_ok _) fun _ _ => throwsPayout_check _ _
      | _ => exact absurd hinteger (by simp only [Json.isNumberInteger, Json.isNumberUnsigned,
          Bool.or_self, Bool.false_eq_true, not_false_eq_true])

theorem byteAt_eq (b : Bytes) (i : Nat) (h : i < b.length) : byteAt b i = .ok b[i] := by
  unfold byteAt
  rw [List.getElem?_eq_getElem h]

/-- Within the vector, the comparison is the one of the bytes at the offset. -/
theorem equalAt_eq (b : Bytes) (offset : Nat) (given : Bytes)
    (h : offset + given.length ≤ b.length) :
    equalAt b offset given = .ok (decide ((b.drop offset).take given.length = given)) := by
  induction given generalizing offset with
  | nil => simp only [equalAt, List.length_nil, List.take_zero, decide_true]
  | cons x rest ih =>
      rw [List.length_cons] at h
      have hlt : offset < b.length := by omega
      rw [equalAt, byteAt_eq b offset hlt, List.drop_eq_getElem_cons hlt, List.length_cons,
        List.take_succ_cons]
      by_cases hx : x = b[offset]
      · simp only [bind, Except.bind, ih (offset + 1) (by omega), List.cons.injEq, hx.symm,
          true_and, if_true]
      · have hne : ¬b[offset] = x := fun heq => hx heq.symm
        simp only [bind, Except.bind, if_neg hx, pure, Except.pure, List.cons.injEq, hne, false_and,
          decide_false]

/-- A script of 34 bytes passes the last checks exactly when it is the version,
    the length and the program. -/
theorem script_checks (script program : Bytes) (hscript : script.length = 34)
    (hprogram : program.length = 32) :
    byteAt script 0 = .ok (script[0]) ∧ byteAt script 1 = .ok (script[1]) ∧
    equalAt script 2 program = .ok (decide (script.drop 2 = program)) ∧
    (script = 0x52 :: 0x20 :: program ↔
      ¬(script[0] ≠ 0x52 ∨ script[1] ≠ 0x20) ∧ script.drop 2 = program) := by
  have hall : (script.drop 2).take program.length = script.drop 2 :=
    List.take_of_length_le (by rw [List.length_drop]; omega)
  refine ⟨byteAt_eq _ _ (by omega), byteAt_eq _ _ (by omega), ?_, ?_⟩
  · rw [equalAt_eq script 2 program (by omega), hall]
  · cases script with
    | nil => exact absurd hscript (by decide)
    | cons first tail =>
        cases tail with
        | nil => exact absurd hscript (by simp only [List.length_singleton, Nat.reduceEqDiff,
            not_false_eq_true])
        | cons second rest =>
            simp only [List.cons.injEq, List.getElem_cons_zero, List.getElem_cons_succ,
              List.drop_succ_cons, List.drop_zero, not_or, not_not, and_assoc]

/-- Exactly the canonical answers are accepted, with the script they give. -/
theorem parsePayout_ok_iff (v : Json) (script : Bytes) :
    parsePayoutAddressResponse v = .ok script ↔ CanonicalAnswer v script := by
  simp only [parsePayoutAddressResponse, bind_ok, check_ok, pure_ok, requireValid_ok,
    requireWitness_ok, requireVersion_ok, exists_const]
  constructor
  · intro hparts
    rcases hparts with ⟨hobject, hvalid, hwitness, hversion, program, hprogram, found, hfound,
      first, hfirst, second, hsecond, hstart, equal, hequal, htrue, rfl⟩
    -- The script has the length that every byte read of it needs.
    rcases script_checks found program (length_requireHex _ _ _ _ hfound)
      (length_requireHex _ _ _ _ hprogram) with ⟨h0, h1, h2, hform⟩
    rw [h0, Except.ok.injEq] at hfirst
    rw [h1, Except.ok.injEq] at hsecond
    rw [h2, Except.ok.injEq] at hequal
    rw [← hfirst, ← hsecond] at hstart
    rw [← hequal, decide_eq_true_eq] at htrue
    rcases (requireHex_ok _ _ _ _).mp hprogram with ⟨programHex, hp, hplen, hpread⟩
    rcases (requireHex_ok _ _ _ _).mp hfound with ⟨scriptHex, hs, hslen, hsread⟩
    exact ⟨hobject, hvalid, hwitness, hversion, programHex, scriptHex, program, hp, hplen, hpread,
      hs, hslen, hsread, hform.mpr ⟨hstart, htrue⟩⟩
  · intro hparts
    rcases hparts with ⟨hobject, hvalid, hwitness, hversion, programHex, scriptHex, program, hp,
      hplen, hpread, hs, hslen, hsread, hscript⟩
    have hprogram : requireHex v "witness_program" 32 = .ok program :=
      (requireHex_ok _ _ _ _).mpr ⟨programHex, hp, hplen, hpread⟩
    have hfound : requireHex v "scriptPubKey" 34 = .ok script :=
      (requireHex_ok _ _ _ _).mpr ⟨scriptHex, hs, hslen, hsread⟩
    rcases script_checks script program (length_requireHex _ _ _ _ hfound)
      (length_requireHex _ _ _ _ hprogram) with ⟨h0, h1, h2, hform⟩
    rcases hform.mp hscript with ⟨hstart, hequal⟩
    exact ⟨hobject, hvalid, hwitness, hversion, program, hprogram, script, hfound, _, h0, _, h1,
      hstart, _, h2, decide_eq_true hequal, rfl⟩

/-- Nothing but the exception of this code is thrown, and no byte outside the
    script is read. -/
theorem parsePayout_throws (v : Json) : ThrowsPayout (parsePayoutAddressResponse v) := by
  unfold parsePayoutAddressResponse
  refine throwsPayout_bind _ _ (throwsPayout_check _ _) fun _ _ => ?_
  refine throwsPayout_bind _ _ (requireValid_throws v) fun _ _ => ?_
  refine throwsPayout_bind _ _ (requireWitness_throws v) fun _ _ => ?_
  refine throwsPayout_bind _ _ (requireVersion_throws v) fun _ _ => ?_
  refine throwsPayout_bind _ _ (requireHex_throws v _ _) fun program hprogram => ?_
  refine throwsPayout_bind _ _ (requireHex_throws v _ _) fun script hscript => ?_
  rcases script_checks script program (length_requireHex _ _ _ _ hscript)
    (length_requireHex _ _ _ _ hprogram) with ⟨h0, h1, h2, _⟩
  rw [h0, h1, h2]
  refine throwsPayout_bind _ _ (throwsPayout_ok _) fun first _ => ?_
  refine throwsPayout_bind _ _ (throwsPayout_ok _) fun second _ => ?_
  refine throwsPayout_bind _ _ (throwsPayout_check _ _) fun _ _ => ?_
  refine throwsPayout_bind _ _ (throwsPayout_ok _) fun equal _ => ?_
  exact throwsPayout_bind _ _ (throwsPayout_check _ _) fun _ _ => throwsPayout_ok script

/-- Texts that differ in case have the same length and the same bytes. -/
theorem decode_caseVariant (s s' : Text) (h : s'.map Hex.lower = s.map Hex.lower) :
    s'.length = s.length ∧ Hex.decode s' = Hex.decode s := by
  refine ⟨?_, ?_⟩
  · have hlen := congrArg List.length h
    rwa [List.length_map, List.length_map] at hlen
  · rw [← Hex.decode_lower s', h, Hex.decode_lower]

/-- The answers accepted are exactly those about a version 2 witness address
    with a canonical script, and then that script is returned, whatever the
    case of its digits. Every other answer makes the function throw its own
    exception. -/
theorem payout_address_exact (v : Json) :
    (∀ script, parsePayoutAddressResponse v = .ok script ↔ CanonicalAnswer v script) ∧
    (∀ script, CanonicalAnswer v script → script.length = 34) ∧
    ((¬∃ script, CanonicalAnswer v script) →
      ∃ what, parsePayoutAddressResponse v = .error (.payoutAddress what)) ∧
    ∀ w script, CaseVariant v w → parsePayoutAddressResponse v = .ok script →
      parsePayoutAddressResponse w = .ok script := by
  refine ⟨parsePayout_ok_iff v, fun script h => ?_, fun hnone => ?_, fun w script hcase h => ?_⟩
  · rcases h.hex with ⟨_, scriptHex, _, _, _, _, _, hlen, hread, _⟩
    have hbytes := Hex.length_decode scriptHex script hread
    omega
  · cases hparse : parsePayoutAddressResponse v with
    | ok script => exact absurd ⟨script, (parsePayout_ok_iff v script).mp hparse⟩ hnone
    | error e =>
        rcases parsePayout_throws v e hparse with ⟨what, rfl⟩
        exact ⟨what, rfl⟩
  · rw [parsePayout_ok_iff] at h ⊢
    rcases h.hex with ⟨programHex, scriptHex, program, hp, hplen, hpread, hs, hslen, hsread, hform⟩
    rcases hcase.hex "witness_program" (by simp only [List.mem_cons, true_or]) programHex hp with
      ⟨programHex', hp', hplower⟩
    rcases hcase.hex "scriptPubKey" (by simp only [List.mem_cons, true_or, or_true]) scriptHex hs
      with ⟨scriptHex', hs', hslower⟩
    -- Neither the length nor the bytes of a text depend on the case.
    rcases decode_caseVariant programHex programHex' hplower with ⟨hplen', hpread'⟩
    rcases decode_caseVariant scriptHex scriptHex' hslower with ⟨hslen', hsread'⟩
    exact {
      object := hcase.object.trans h.object
      valid := hcase.valid.trans h.valid
      witness := hcase.witness.trans h.witness
      version := by
        rw [hcase.version]
        exact h.version
      hex := ⟨programHex', scriptHex', program, hp', hplen'.trans hplen, hpread'.trans hpread, hs',
        hslen'.trans hslen, hsread'.trans hsread, hform⟩ }

end MercaMiner
