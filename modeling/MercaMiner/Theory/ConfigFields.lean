import MercaMiner.Core.MinerConfig

/-!
# The Seven Settings

The fields of a configuration as values of one type, and what the
configuration code does with them field by field.

The source repeats the list of fields in the two parsers, in merging and in
resolving. Here every copy is compared with one enumeration: `storeKey_key`
and `storeOption_option` say that both parsers store what `Setting.store`
does, and `mergeMinerConfig_sameAt` that merging takes every field. A
configuration is then determined by its settings, one at a time.

## Main definitions

* `Setting`: The fields.
* `MinerConfig.value`: The text of a field.
* `MinerConfig.Writable`: A configuration whose fields can be written down.
* `MinerConfig.adopt`, `adoptAll`: Taking fields from another configuration.
* `MinerConfig.restrict`: Some of the fields.

## Theorems

* `storeKey_key`, `storeOption_option`: The parsers store a field.
* `adoptAll_complete`: Taking every field that is there gives the whole.
* `mergeMinerConfig_restrict`: A configuration in two parts.
-/

namespace MercaMiner

inductive Setting where
  | network
  | payoutAddress
  | threads
  | blockLimit
  | reportInterval
  | rpcUrl
  | cookieFile
  deriving DecidableEq

namespace Setting

def all : List Setting :=
  [network, payoutAddress, threads, blockLimit, reportInterval, rpcUrl, cookieFile]

/-- The key of a setting in the file. -/
def key : Setting → Text
  | network => text "network"
  | payoutAddress => text "payout_address"
  | threads => text "threads"
  | blockLimit => text "block_limit"
  | reportInterval => text "report_interval"
  | rpcUrl => text "rpc_url"
  | cookieFile => text "cookie_file"

/-- The option of a setting on the command line. -/
def option : Setting → Text
  | network => text "--network"
  | payoutAddress => text "--payout-address"
  | threads => text "--threads"
  | blockLimit => text "--block-limit"
  | reportInterval => text "--report-interval"
  | rpcUrl => text "--rpc-url"
  | cookieFile => text "--cookie-file"

/-- Store the value of a setting given as text. -/
def store (s : Setting) (base : MinerConfig) (value : Text) :
    Except MinerConfigException MinerConfig :=
  match s with
  | network => .ok { base with network := some value }
  | payoutAddress => .ok { base with payoutAddress := some value }
  | threads => (parseMinerThreadCount value).map fun n => { base with threadCount := some n }
  | blockLimit => (parseMinerBlockLimit value).map fun n => { base with blockLimit := some n }
  | reportInterval =>
      (parseMinerReportInterval value).map fun n => { base with reportInterval := some n }
  | rpcUrl => .ok { base with rpcUrl := some value }
  | cookieFile => .ok { base with cookieFile := some value }

theorem mem_all (s : Setting) : s ∈ all := by
  cases s <;> decide

theorem key_injective (s s' : Setting) (h : s.key = s'.key) : s = s' :=
  List.inj_on_of_nodup_map (l := all) (by decide) (mem_all s) (mem_all s') h

theorem option_injective (s s' : Setting) (h : s.option = s'.option) : s = s' :=
  List.inj_on_of_nodup_map (l := all) (by decide) (mem_all s) (mem_all s') h

end Setting

/-- The file's chain of comparisons knows every key. -/
theorem storeKey_key (s : Setting) (base : MinerConfig) (value : Text) :
    storeKey base s.key value = s.store base value := by
  cases s <;> rfl

/-- So does the command line's chain of every option, which stores into the
    overrides. -/
theorem storeOption_option (s : Setting) (result : MinerCommandLine) (value : Text) :
    storeOption result s.option value =
      (s.store result.overrides value).map fun overrides =>
        { result with overrides := overrides } := by
  have hmap {α : Type} (x : Except MinerConfigException α) (f : α → MinerConfig) :
      (x >>= fun n => pure { result with overrides := f n }) =
        (x.map f).map fun overrides => { result with overrides := overrides } := by
    cases x with
    | error e => rfl
    | ok n => rfl
  cases s with
  | network => rfl
  | payoutAddress => rfl
  | threads => exact hmap _ fun n => { result.overrides with threadCount := some n }
  | blockLimit => exact hmap _ fun n => { result.overrides with blockLimit := some n }
  | reportInterval => exact hmap _ fun n => { result.overrides with reportInterval := some n }
  | rpcUrl => rfl
  | cookieFile => rfl

/-- A string that can stand in a line of the file. -/
structure PlainText (value : Text) : Prop where
  bare : Lines.Bare isWhitespace value
  oneLine : newline ∉ value

namespace MinerConfig

/-- The text of a setting that is there. -/
def value (c : MinerConfig) : Setting → Option Text
  | .network => c.network
  | .payoutAddress => c.payoutAddress
  | .threads => c.threadCount.map fun n => Decimal.numeral n.toNat
  | .blockLimit => c.blockLimit.map fun n => Decimal.numeral n.toNat
  | .reportInterval => c.reportInterval.map fun n => Decimal.numeral n.toNat
  | .rpcUrl => c.rpcUrl
  | .cookieFile => c.cookieFile

/-- The settings can be written down: their strings are plain, and the thread
    count is positive. -/
structure Writable (c : MinerConfig) : Prop where
  network : ∀ s, c.network = some s → PlainText s
  payoutAddress : ∀ s, c.payoutAddress = some s → PlainText s
  threadCount : c.threadCount ≠ some 0
  rpcUrl : ∀ s, c.rpcUrl = some s → PlainText s
  cookieFile : ∀ s, c.cookieFile = some s → PlainText s

/-- The configuration with one setting taken from another. -/
def adopt (base c : MinerConfig) : Setting → MinerConfig
  | .network => { base with network := c.network }
  | .payoutAddress => { base with payoutAddress := c.payoutAddress }
  | .threads => { base with threadCount := c.threadCount }
  | .blockLimit => { base with blockLimit := c.blockLimit }
  | .reportInterval => { base with reportInterval := c.reportInterval }
  | .rpcUrl => { base with rpcUrl := c.rpcUrl }
  | .cookieFile => { base with cookieFile := c.cookieFile }

def adoptAll (base c : MinerConfig) (settings : List Setting) : MinerConfig :=
  settings.foldl (fun base s => base.adopt c s) base

/-- Two configurations agree on a setting. -/
def SameAt (c d : MinerConfig) : Setting → Prop
  | .network => c.network = d.network
  | .payoutAddress => c.payoutAddress = d.payoutAddress
  | .threads => c.threadCount = d.threadCount
  | .blockLimit => c.blockLimit = d.blockLimit
  | .reportInterval => c.reportInterval = d.reportInterval
  | .rpcUrl => c.rpcUrl = d.rpcUrl
  | .cookieFile => c.cookieFile = d.cookieFile

/-- Some of the settings. -/
def restrict (c : MinerConfig) (keep : Setting → Bool) : MinerConfig where
  network := if keep .network then c.network else none
  payoutAddress := if keep .payoutAddress then c.payoutAddress else none
  threadCount := if keep .threads then c.threadCount else none
  blockLimit := if keep .blockLimit then c.blockLimit else none
  reportInterval := if keep .reportInterval then c.reportInterval else none
  rpcUrl := if keep .rpcUrl then c.rpcUrl else none
  cookieFile := if keep .cookieFile then c.cookieFile else none

theorem eq_of_sameAt (c d : MinerConfig) (h : ∀ s, SameAt c d s) : c = d :=
  MinerConfig.ext (h .network) (h .payoutAddress) (h .threads) (h .blockLimit)
    (h .reportInterval) (h .rpcUrl) (h .cookieFile)

theorem SameAt.symm (c d : MinerConfig) (s : Setting) (h : SameAt c d s) : SameAt d c s := by
  cases s <;> exact Eq.symm h

theorem SameAt.trans (c d e : MinerConfig) (s : Setting) (h : SameAt c d s)
    (h' : SameAt d e s) : SameAt c e s := by
  cases s <;> exact Eq.trans h h'

theorem sameAt_refl (c : MinerConfig) (s : Setting) : SameAt c c s := by
  cases s <;> rfl

/-- Settings that are not there agree. -/
theorem sameAt_of_none (c d : MinerConfig) (s : Setting) (hc : c.value s = none)
    (hd : d.value s = none) : SameAt c d s := by
  cases s with
  | network => exact hc.trans hd.symm
  | payoutAddress => exact hc.trans hd.symm
  | threads => exact (Option.map_eq_none_iff.mp hc).trans (Option.map_eq_none_iff.mp hd).symm
  | blockLimit => exact (Option.map_eq_none_iff.mp hc).trans (Option.map_eq_none_iff.mp hd).symm
  | reportInterval =>
      exact (Option.map_eq_none_iff.mp hc).trans (Option.map_eq_none_iff.mp hd).symm
  | rpcUrl => exact hc.trans hd.symm
  | cookieFile => exact hc.trans hd.symm

theorem adopt_sameAt (base c : MinerConfig) (s : Setting) : SameAt (base.adopt c s) c s := by
  cases s <;> rfl

theorem adopt_other (base c : MinerConfig) (s s' : Setting) (h : s ≠ s') :
    SameAt (base.adopt c s') base s := by
  cases s <;> cases s' <;> first | rfl | exact absurd rfl h

/-- Each setting comes from the configuration it was taken from last, and the
    others from the base. -/
theorem adoptAll_sameAt (c : MinerConfig) (settings : List Setting) (base : MinerConfig)
    (s : Setting) :
    SameAt (adoptAll base c settings) (if s ∈ settings then c else base) s := by
  induction settings using List.reverseRecOn with
  | nil =>
      rw [if_neg List.not_mem_nil]
      exact sameAt_refl base s
  | append_singleton init s' ih =>
      have hlast : adoptAll base c (init ++ [s']) = (adoptAll base c init).adopt c s' := by
        rw [adoptAll, List.foldl_append]
        rfl
      rw [hlast]
      -- The last one taken overrides whatever came before.
      by_cases hs : s = s'
      · rw [if_pos (List.mem_append_right init (hs ▸ List.mem_singleton_self s)), hs]
        exact adopt_sameAt _ c s'
      · have hother := adopt_other (adoptAll base c init) c s s' hs
        have hmem : s ∈ init ++ [s'] ↔ s ∈ init := by
          rw [List.mem_append, List.mem_singleton, or_iff_left hs]
        simp only [hmem]
        exact hother.trans _ _ _ s ih

/-- Taking every setting that is there gives the whole configuration. -/
theorem adoptAll_complete (c : MinerConfig) (settings : List Setting)
    (h : ∀ s, s ∈ settings ↔ (c.value s).isSome = true) :
    adoptAll emptyMinerConfig c settings = c := by
  refine eq_of_sameAt _ _ fun s => ?_
  have hsame := adoptAll_sameAt c settings emptyMinerConfig s
  by_cases hs : s ∈ settings
  · rwa [if_pos hs] at hsame
  · rw [if_neg hs] at hsame
    -- A setting that was not taken is absent on both sides.
    refine hsame.trans _ _ _ s (sameAt_of_none _ _ s ?_ ?_)
    · cases s <;> rfl
    · rw [h] at hs
      exact Option.not_isSome_iff_eq_none.mp hs

/-- Merging takes every setting that is there from the overrides. -/
theorem mergeMinerConfig_sameAt (base overrides : MinerConfig) (s : Setting) :
    SameAt (mergeMinerConfig base overrides)
      (if (overrides.value s).isSome = true then overrides else base) s := by
  cases s with
  | network =>
      simp only [SameAt, value, mergeMinerConfig, apply_ite MinerConfig.network, ite_self]
      exact (apply_ite MinerConfig.network _ _ _).symm
  | payoutAddress =>
      simp only [SameAt, value, mergeMinerConfig, apply_ite MinerConfig.payoutAddress, ite_self]
      exact (apply_ite MinerConfig.payoutAddress _ _ _).symm
  | threads =>
      simp only [SameAt, value, mergeMinerConfig, apply_ite MinerConfig.threadCount, ite_self,
        Option.isSome_map]
  | blockLimit =>
      simp only [SameAt, value, mergeMinerConfig, apply_ite MinerConfig.blockLimit, ite_self,
        Option.isSome_map]
  | reportInterval =>
      simp only [SameAt, value, mergeMinerConfig, apply_ite MinerConfig.reportInterval, ite_self,
        Option.isSome_map]
  | rpcUrl =>
      simp only [SameAt, value, mergeMinerConfig, apply_ite MinerConfig.rpcUrl, ite_self]
      exact (apply_ite MinerConfig.rpcUrl _ _ _).symm
  | cookieFile =>
      simp only [SameAt, value, mergeMinerConfig, apply_ite MinerConfig.cookieFile, ite_self]
      exact (apply_ite MinerConfig.cookieFile _ _ _).symm

theorem restrict_value (c : MinerConfig) (keep : Setting → Bool) (s : Setting) :
    (c.restrict keep).value s = if keep s = true then c.value s else none := by
  cases s <;> simp only [value, restrict, apply_ite (Option.map _), Option.map_none]

theorem restrict_sameAt (c : MinerConfig) (keep : Setting → Bool) (s : Setting)
    (h : keep s = true) : SameAt (c.restrict keep) c s := by
  cases s <;> exact if_pos h

/-- A configuration in two parts: some of its settings as overrides, and a
    base that has the others and anything in the place of these. -/
theorem mergeMinerConfig_restrict (c base : MinerConfig) (keep : Setting → Bool)
    (h : ∀ s, ¬(keep s = true ∧ (c.value s).isSome = true) → SameAt base c s) :
    mergeMinerConfig base (c.restrict keep) = c := by
  refine eq_of_sameAt _ _ fun s => ?_
  have hmerge := mergeMinerConfig_sameAt base (c.restrict keep) s
  rw [restrict_value] at hmerge
  by_cases hkeep : keep s = true
  · by_cases hsome : (c.value s).isSome = true
    · rw [if_pos hkeep, if_pos hsome] at hmerge
      exact hmerge.trans _ _ _ s (restrict_sameAt c keep s hkeep)
    · rw [if_pos hkeep, if_neg hsome] at hmerge
      exact hmerge.trans _ _ _ s (h s fun hboth => hsome hboth.2)
  · rw [if_neg hkeep, Option.isSome_none, if_neg Bool.false_ne_true] at hmerge
    exact hmerge.trans _ _ _ s (h s fun hboth => hkeep hboth.1)

theorem Writable.restrict (c : MinerConfig) (keep : Setting → Bool) (h : c.Writable) :
    (c.restrict keep).Writable := by
  have hsome {α : Type} (b : Bool) (x : Option α) (a : α)
      (hx : (if b = true then x else none) = some a) : x = some a := by
    cases b with
    | false => exact absurd hx (by simp only [Bool.false_eq_true, if_false, reduceCtorEq,
        not_false_eq_true])
    | true => exact hx
  exact ⟨fun s hs => h.network s (hsome _ _ s hs), fun s hs => h.payoutAddress s (hsome _ _ s hs),
    fun hs => h.threadCount (hsome _ _ 0 hs), fun s hs => h.rpcUrl s (hsome _ _ s hs),
    fun s hs => h.cookieFile s (hsome _ _ s hs)⟩

end MinerConfig

end MercaMiner
