import MercaMiner.Theory.ConfigFields

/-!
# Files and Arguments Say the Same

A configuration written to a file, given as arguments, or split between the
two is read back as it was.

A file may list its settings in any order and put margins, comments and empty
lines where it likes; `Writes` relates a configuration to such texts. The
reader undoes each line: trimming takes the margins off, the first equals sign
is the one after the key, and a numeral is read as its number. Read in order,
the settings accumulate, and which order it was no longer shows when all are
there. The arguments are read in the same way without the margins.

Both readers refuse a name they have seen. What they do see is computed by
`configKeys` and `optionsOf` from any text or arguments at all.

## Main definitions

* `ConfigLine`, `Writes`: The texts of a configuration.
* `Lists`, `arguments`: Its argument lists.
* `configKeys`, `optionsOf`: The names a reader meets.

## Theorems

* `store_value`: A setting's text is read as the setting.
* `parseConfigLines_write`, `parseArguments_write`: The two loops.
* `parseConfigLines_nodup`, `parseArguments_nodup`: What was read has no name
  twice.
* `config_interchange`: The whole.
-/

namespace MercaMiner

theorem digit_not_whitespace (b : UInt8) (h : Decimal.isDigit b = true) :
    isWhitespace b = false := by
  refine Bool.eq_false_of_not_eq_true fun hwhite => ?_
  simp only [isWhitespace, Bool.or_eq_true, beq_iff_eq] at hwhite
  rcases hwhite with ((rfl | rfl) | rfl) | rfl
  · exact absurd h (by decide)
  · exact absurd h (by decide)
  · exact absurd h (by decide)
  · exact absurd h (by decide)

/-- A numeral can stand in a line. -/
theorem numeral_plain (n : Nat) : PlainText (Decimal.numeral n) := by
  have hdigits := Decimal.isDigit_numeral n
  have hne := Decimal.numeral_ne_nil n
  have hbare (b : UInt8) (hb : b ∈ Decimal.numeral n) : isWhitespace b = false :=
    digit_not_whitespace b (hdigits b hb)
  refine ⟨⟨?_, ?_⟩, fun hmem => ?_⟩
  · rcases List.exists_cons_of_ne_nil hne with ⟨a, rest, heq⟩
    exact ⟨a, rest, heq, hbare a (heq ▸ List.mem_cons_self)⟩
  · refine ⟨_, _, (List.dropLast_concat_getLast hne).symm, hbare _ (List.getLast_mem hne)⟩
  · exact absurd (hbare newline hmem) (by decide)

theorem fromChars_numeral (n : Nat) (h : n < 2 ^ 64) :
    fromChars (Decimal.numeral n) = (some (UInt64.ofNat n), []) := by
  have hdigits := Decimal.isDigit_numeral n
  have htake : (Decimal.numeral n).takeWhile Decimal.isDigit = Decimal.numeral n :=
    List.takeWhile_eq_self_iff.mpr hdigits
  have hdrop : (Decimal.numeral n).dropWhile Decimal.isDigit = [] :=
    List.dropWhile_eq_nil_iff.mpr hdigits
  simp only [fromChars, htake, hdrop, if_neg (Decimal.numeral_ne_nil n), Decimal.value_numeral,
    if_pos h]

theorem parseUnsigned_numeral (n : UInt64) (description : String) :
    parseUnsigned (Decimal.numeral n.toNat) description = .ok n := by
  rw [parseUnsigned, fromChars_numeral n.toNat n.toNat_lt, UInt64.ofNat_toNat]
  simp only [Outcome.check, if_pos (Decimal.numeral_ne_nil n.toNat), bind, Except.bind, pure,
    Except.pure]

theorem parseMinerThreadCount_numeral (n : UInt64) (h : n ≠ 0) :
    parseMinerThreadCount (Decimal.numeral n.toNat) = .ok n := by
  -- No 64-bit number exceeds the largest one.
  have hmax : ¬n > 0xffffffffffffffff := by
    have hlt := n.toNat_lt
    have hnat : (0xffffffffffffffff : UInt64).toNat = 2 ^ 64 - 1 := rfl
    rw [gt_iff_lt, UInt64.lt_iff_toNat_lt, hnat]
    omega
  rw [parseMinerThreadCount, parseUnsigned_numeral]
  simp only [Outcome.check, not_or, h, hmax, not_false_eq_true, and_self, if_true, bind,
    Except.bind, pure, Except.pure]

theorem parseMinerReportInterval_numeral (n : UInt32) :
    parseMinerReportInterval (Decimal.numeral n.toNat) = .ok n := by
  have hlt := n.toNat_lt
  -- Read in 64 bits, checked, and stored in 32.
  have hwide : parseUnsigned (Decimal.numeral n.toNat) "report interval" = .ok n.toUInt64 := by
    rw [← UInt32.toNat_toUInt64]
    exact parseUnsigned_numeral n.toUInt64 _
  have hmax : ¬n.toUInt64 > 0xffffffff := by
    have hnat : (0xffffffff : UInt64).toNat = 2 ^ 32 - 1 := rfl
    rw [gt_iff_lt, UInt64.lt_iff_toNat_lt, hnat, UInt32.toNat_toUInt64]
    omega
  have hnarrow : n.toUInt64.toUInt32 = n := by
    refine UInt32.toNat_inj.mp ?_
    rw [UInt64.toNat_toUInt32, UInt32.toNat_toUInt64]
    omega
  rw [parseMinerReportInterval, hwide]
  simp only [Outcome.check, hmax, not_false_eq_true, if_true, bind, Except.bind, pure,
    Except.pure, hnarrow]

namespace MinerConfig

/-- The text of a setting can stand in a line. -/
theorem Writable.plain (c : MinerConfig) (hc : c.Writable) (s : Setting) (value : Text)
    (h : c.value s = some value) : PlainText value := by
  have hnumber {α : Type} (field : Option α) (f : α → Nat)
      (hfield : field.map (fun n => Decimal.numeral (f n)) = some value) : PlainText value := by
    rcases Option.map_eq_some_iff.mp hfield with ⟨n, _, rfl⟩
    exact numeral_plain (f n)
  cases s with
  | network => exact hc.network value h
  | payoutAddress => exact hc.payoutAddress value h
  | threads => exact hnumber c.threadCount UInt64.toNat h
  | blockLimit => exact hnumber c.blockLimit UInt64.toNat h
  | reportInterval => exact hnumber c.reportInterval UInt32.toNat h
  | rpcUrl => exact hc.rpcUrl value h
  | cookieFile => exact hc.cookieFile value h

/-- A setting's text is read as the setting. -/
theorem store_value (c : MinerConfig) (hc : c.Writable) (s : Setting) (value : Text)
    (h : c.value s = some value) (base : MinerConfig) :
    s.store base value = .ok (base.adopt c s) := by
  cases s with
  | network => rw [Setting.store, ← h]; rfl
  | payoutAddress => rw [Setting.store, ← h]; rfl
  | threads =>
      rcases Option.map_eq_some_iff.mp h with ⟨n, hn, rfl⟩
      have hpos : n ≠ 0 := fun hzero => hc.threadCount (hn.trans (congrArg some hzero))
      rw [Setting.store, parseMinerThreadCount_numeral n hpos, adopt, hn]
      rfl
  | blockLimit =>
      rcases Option.map_eq_some_iff.mp h with ⟨n, hn, rfl⟩
      rw [Setting.store, parseMinerBlockLimit, parseUnsigned_numeral, adopt, hn]
      rfl
  | reportInterval =>
      rcases Option.map_eq_some_iff.mp h with ⟨n, hn, rfl⟩
      rw [Setting.store, parseMinerReportInterval_numeral, adopt, hn]
      rfl
  | rpcUrl => rw [Setting.store, ← h]; rfl
  | cookieFile => rw [Setting.store, ← h]; rfl

end MinerConfig

/-- Blanks, tabs and carriage returns. -/
def Margin (m : Text) : Prop :=
  ∀ b ∈ m, isWhitespace b = true ∧ b ≠ newline

/-- A line of a configuration file. -/
inductive ConfigLine where
  | blank (margin : Text)
  | comment (margin rest : Text)
  | entry (setting : Setting) (before afterKey beforeValue after : Text)

namespace ConfigLine

def setting : ConfigLine → Option Setting
  | blank _ => none
  | comment _ _ => none
  | entry s _ _ _ _ => some s

/-- The part of an entry between its outer margins. -/
def content (s : Setting) (afterKey beforeValue value : Text) : Text :=
  s.key ++ (afterKey ++ equalsSign :: beforeValue) ++ value

/-- The text of a line in a file for a configuration. -/
def write (c : MinerConfig) : ConfigLine → Text
  | blank margin => margin
  | comment margin rest => margin ++ hashSign :: rest
  | entry s before afterKey beforeValue after =>
      before ++ content s afterKey beforeValue ((c.value s).getD []) ++ after

theorem write_blank (c : MinerConfig) (margin : Text) : (blank margin).write c = margin := rfl

theorem write_comment (c : MinerConfig) (margin rest : Text) :
    (comment margin rest).write c = margin ++ hashSign :: rest := rfl

theorem write_entry (c : MinerConfig) (s : Setting)
    (before afterKey beforeValue after : Text) :
    (entry s before afterKey beforeValue after).write c =
      before ++ content s afterKey beforeValue ((c.value s).getD []) ++ after := rfl

/-- The margins are blank and a comment stays on its line. -/
def Proper : ConfigLine → Prop
  | blank margin => Margin margin
  | comment margin rest => Margin margin ∧ newline ∉ rest
  | entry _ before afterKey beforeValue after =>
      Margin before ∧ Margin afterKey ∧ Margin beforeValue ∧ Margin after

end ConfigLine

/-- A text that writes a configuration down: every setting that is there once,
    in lines of which the last may lack its end. -/
structure Writes (c : MinerConfig) (ls : List ConfigLine) (configText : Text) : Prop where
  proper : ∀ l ∈ ls, l.Proper
  once : (ls.filterMap ConfigLine.setting).Nodup
  complete : ∀ s, s ∈ ls.filterMap ConfigLine.setting ↔ (c.value s).isSome = true
  lines : configText = Lines.terminated newline (ls.map (ConfigLine.write c)) ∨
    configText ++ [newline] = Lines.terminated newline (ls.map (ConfigLine.write c))

theorem key_bare (s : Setting) : Lines.Bare isWhitespace s.key := by
  cases s <;> exact ⟨⟨_, _, rfl, by decide⟩, ⟨_, _, (List.dropLast_concat_getLast (by decide)).symm,
    by decide⟩⟩

theorem key_plain (s : Setting) : newline ∉ s.key ∧ equalsSign ∉ s.key := by
  cases s <;> decide

/-- An entry is not taken for a comment. -/
theorem content_not_skipped (s : Setting) (afterKey beforeValue value : Text) :
    isSkipped (ConfigLine.content s afterKey beforeValue value) = false := by
  cases s <;> rfl

/-- The first equals sign of an entry is the one after its key. -/
theorem splitLine_content (s : Setting) (afterKey beforeValue value : Text)
    (hafterKey : Margin afterKey) :
    splitLine (ConfigLine.content s afterKey beforeValue value)
      = some (s.key ++ afterKey, beforeValue ++ value) := by
  have hequals : isWhitespace equalsSign = false := by decide
  -- Neither a key nor a margin has an equals sign.
  have hbefore : ∀ b ∈ s.key ++ afterKey, decide (b ≠ equalsSign) = true := by
    intro b hb
    rw [decide_eq_true_eq]
    rintro rfl
    rcases List.mem_append.mp hb with hkey | hmargin
    · exact (key_plain s).2 hkey
    · rw [(hafterKey equalsSign hmargin).1] at hequals
      exact absurd hequals (by simp only [Bool.true_eq_false, not_false_eq_true])
  have hsplit : ConfigLine.content s afterKey beforeValue value
      = s.key ++ afterKey ++ equalsSign :: (beforeValue ++ value) := by
    simp only [ConfigLine.content, List.append_assoc, List.cons_append]
  rw [splitLine, hsplit, Lines.span_append _ (s.key ++ afterKey) _ equalsSign hbefore
    (decide_eq_false fun h => h rfl)]

section

variable (c : MinerConfig)

theorem write_oneLine (hc : c.Writable) (l : ConfigLine) (hl : l.Proper) :
    newline ∉ l.write c := by
  have hmargin (m : Text) (hm : Margin m) : newline ∉ m := fun h => (hm newline h).2 rfl
  cases l with
  | blank margin => exact hmargin margin hl
  | comment margin rest =>
      rcases hl with ⟨hm, hrest⟩
      simp only [ConfigLine.write_comment, List.mem_append, List.mem_cons, not_or]
      exact ⟨hmargin margin hm, by decide, hrest⟩
  | entry s before afterKey beforeValue after =>
      rcases hl with ⟨hbefore, hafterKey, hbeforeValue, hafter⟩
      have hvalue : newline ∉ (c.value s).getD [] := by
        cases h : c.value s with
        | none => exact List.not_mem_nil
        | some value => exact (hc.plain c s value h).oneLine
      simp only [ConfigLine.write_entry, ConfigLine.content, List.mem_append, List.mem_cons, not_or]
      exact ⟨⟨hmargin before hbefore, ⟨(key_plain s).1, hmargin afterKey hafterKey, by decide,
        hmargin beforeValue hbeforeValue⟩, hvalue⟩, hmargin after hafter⟩

/-- A line without an entry changes nothing. -/
theorem parseConfigLine_skipped (lineNumber : Nat) (l : ConfigLine) (hl : l.Proper)
    (hnone : l.setting = none) (base : MinerConfig) (seen : List Text) :
    parseConfigLine lineNumber (l.write c) base seen = .ok (base, seen) := by
  cases l with
  | blank margin =>
      have htrim : trim margin = [] := Lines.strip_blank isWhitespace margin fun b hb => (hl b hb).1
      rw [parseConfigLine, ConfigLine.write_blank, htrim]
      rfl
  | comment margin rest =>
      rcases Lines.strip_head isWhitespace margin rest hashSign (fun b hb => (hl.1 b hb).1)
        (by decide) with ⟨tail, htail⟩
      have htrim : trim (margin ++ hashSign :: rest) = hashSign :: tail := htail
      rw [parseConfigLine, ConfigLine.write_comment, htrim]
      rfl
  | entry s before afterKey beforeValue after =>
      simp only [ConfigLine.setting, reduceCtorEq] at hnone

/-- An entry stores its setting and is remembered by its key. -/
theorem parseConfigLine_entry (hc : c.Writable) (lineNumber : Nat) (s : Setting)
    (before afterKey beforeValue after value : Text)
    (hl : (ConfigLine.entry s before afterKey beforeValue after).Proper)
    (hvalue : c.value s = some value) (base : MinerConfig) (seen : List Text)
    (hnew : s.key ∉ seen) :
    parseConfigLine lineNumber
        ((ConfigLine.entry s before afterKey beforeValue after).write c) base seen
      = .ok (base.adopt c s, s.key :: seen) := by
  rcases hl with ⟨hbefore, hafterKey, hbeforeValue, hafter⟩
  have hplain := hc.plain c s value hvalue
  have hblank (m : Text) (hm : Margin m) : ∀ b ∈ m, isWhitespace b = true := fun b hb => (hm b hb).1
  -- The line is trimmed, and then the parts before and after the sign.
  have hline : trim ((ConfigLine.entry s before afterKey beforeValue after).write c)
      = ConfigLine.content s afterKey beforeValue value := by
    rw [ConfigLine.write_entry, hvalue, Option.getD_some]
    exact Lines.strip_margins isWhitespace before _ after (hblank before hbefore)
      (hblank after hafter) (Lines.Bare.append isWhitespace _ _ _ (key_bare s) hplain.bare)
  have hkey : trim (s.key ++ afterKey) = s.key :=
    Lines.strip_margins isWhitespace [] s.key afterKey (fun _ h => absurd h List.not_mem_nil)
      (hblank afterKey hafterKey) (key_bare s)
  have htext : trim (beforeValue ++ value) = value := by
    have hstrip := Lines.strip_margins isWhitespace beforeValue value [] (hblank _ hbeforeValue)
      (fun _ h => absurd h List.not_mem_nil) hplain.bare
    rwa [List.append_nil] at hstrip
  simp only [parseConfigLine, hline, content_not_skipped, Bool.false_eq_true, if_false,
    splitLine_content s afterKey beforeValue value hafterKey, hkey, htext,
    if_neg ((key_bare s).ne_nil isWhitespace), if_neg (hplain.bare.ne_nil isWhitespace),
    if_neg hnew, storeKey_key, c.store_value hc s value hvalue base]

/-- Once a setting is remembered by its name, the names of the others are still
    new. -/
theorem names_new (name : Setting → Text) (hname : ∀ s s', name s = name s' → s = s')
    (s : Setting) (settings : List Setting) (seen : List Text) (hfirst : s ∉ settings)
    (hnew : ∀ s' ∈ s :: settings, name s' ∉ seen) :
    ∀ s' ∈ settings, name s' ∉ name s :: seen := by
  intro s' hs' hmem
  rcases List.mem_cons.mp hmem with hsame | hold
  · exact hfirst (hname s' s hsame ▸ hs')
  · exact hnew s' (List.mem_cons_of_mem s hs') hold

/-- The loop over the lines of a written file. -/
theorem parseConfigLines_write (hc : c.Writable) (ls : List ConfigLine) (lineNumber : Nat)
    (base : MinerConfig) (seen : List Text) (hproper : ∀ l ∈ ls, l.Proper)
    (honce : (ls.filterMap ConfigLine.setting).Nodup)
    (hthere : ∀ s ∈ ls.filterMap ConfigLine.setting, (c.value s).isSome = true)
    (hnew : ∀ s ∈ ls.filterMap ConfigLine.setting, s.key ∉ seen) :
    parseConfigLines lineNumber (ls.map (ConfigLine.write c)) base seen
      = .ok (base.adoptAll c (ls.filterMap ConfigLine.setting)) := by
  induction ls generalizing lineNumber base seen with
  | nil => rfl
  | cons l ls ih =>
      have hl := hproper l List.mem_cons_self
      have htail := fun l' hl' => hproper l' (List.mem_cons_of_mem l hl')
      rw [List.map_cons, parseConfigLines]
      cases hsetting : l.setting with
      | none =>
          have hfilter : (l :: ls).filterMap ConfigLine.setting
              = ls.filterMap ConfigLine.setting := List.filterMap_cons_none hsetting
          rw [hfilter] at honce hthere hnew ⊢
          rw [parseConfigLine_skipped c _ l hl hsetting]
          exact ih _ base seen htail honce hthere hnew
      | some s =>
          have hfilter : (l :: ls).filterMap ConfigLine.setting
              = s :: ls.filterMap ConfigLine.setting := List.filterMap_cons_some hsetting
          rw [hfilter] at honce hthere hnew ⊢
          rcases Option.isSome_iff_exists.mp (hthere s List.mem_cons_self) with ⟨value, hvalue⟩
          rcases List.nodup_cons.mp honce with ⟨hfirst, hrest⟩
          cases l with
          | blank margin => simp only [ConfigLine.setting, reduceCtorEq] at hsetting
          | comment margin rest => simp only [ConfigLine.setting, reduceCtorEq] at hsetting
          | entry s' before afterKey beforeValue after =>
              simp only [ConfigLine.setting, Option.some.injEq] at hsetting
              subst hsetting
              rw [parseConfigLine_entry c hc _ s' before afterKey beforeValue after value hl hvalue
                base seen (hnew s' List.mem_cons_self)]
              exact ih _ _ _ htail hrest (fun s hs => hthere s (List.mem_cons_of_mem s' hs))
                (names_new Setting.key Setting.key_injective s' _ seen hfirst hnew)

/-- An empty last line does not count. -/
theorem parseConfigLines_empty (ls : List Text) (lineNumber : Nat) (base : MinerConfig)
    (seen : List Text) :
    parseConfigLines lineNumber (ls ++ [[]]) base seen
      = parseConfigLines lineNumber ls base seen := by
  induction ls generalizing lineNumber base seen with
  | nil => rfl
  | cons l ls ih =>
      rw [List.cons_append, parseConfigLines, parseConfigLines]
      cases parseConfigLine (lineNumber + 1) l base seen with
      | error e => rfl
      | ok after => exact ih _ _ _

/-- A written file is read back. -/
theorem parseMinerConfigText_write (hc : c.Writable) (ls : List ConfigLine) (configText : Text)
    (h : Writes c ls configText) : parseMinerConfigText configText = .ok c := by
  have hread := parseConfigLines_write c hc ls 0 emptyMinerConfig [] h.proper h.once
    (fun s hs => (h.complete s).mp hs) (fun _ _ => List.not_mem_nil)
  rw [MinerConfig.adoptAll_complete c _ h.complete] at hread
  have honeLine : ∀ l ∈ ls.map (ConfigLine.write c), newline ∉ l := by
    intro l hl
    rcases List.mem_map.mp hl with ⟨l', hl', rfl⟩
    exact write_oneLine c hc l' (h.proper l' hl')
  rw [parseMinerConfigText]
  -- Without its last separator the text may lose an empty line.
  rcases h.lines with hended | hopen
  · rw [hended, Lines.lines_terminated newline _ honeLine, hread]
  · rcases Lines.lines_unterminated newline _ configText honeLine hopen with hsame | hlost
    · rw [← hsame, hread]
    · rw [hlost, parseConfigLines_empty] at hread
      exact hread

/-- The arguments that set some settings. -/
def arguments (settings : List Setting) : List Text :=
  settings.flatMap fun s => [s.option, (c.value s).getD []]

/-- Every setting that is there, once. -/
structure Lists (settings : List Setting) : Prop where
  once : settings.Nodup
  complete : ∀ s, s ∈ settings ↔ (c.value s).isSome = true

/-- The loop over the arguments of some settings. -/
theorem parseArguments_write (hc : c.Writable) (settings : List Setting)
    (result : MinerCommandLine) (seen : List Text) (honce : settings.Nodup)
    (hthere : ∀ s ∈ settings, (c.value s).isSome = true)
    (hnew : ∀ s ∈ settings, s.option ∉ seen) :
    parseArguments (arguments c settings) result seen
      = .ok { result with overrides := result.overrides.adoptAll c settings } := by
  induction settings generalizing result seen with
  | nil => rfl
  | cons s settings ih =>
      rcases Option.isSome_iff_exists.mp (hthere s List.mem_cons_self) with ⟨value, hvalue⟩
      rcases List.nodup_cons.mp honce with ⟨hfirst, hrest⟩
      -- What every option passes before its value is stored.
      have hdashes : (text "--").isPrefixOf s.option = true := by cases s <;> rfl
      have hhelp : s.option ≠ text "--help" := by cases s <;> decide
      have hknown : s.option ∈ knownOptions := by cases s <;> decide
      have hsplit : arguments c (s :: settings) = s.option :: value :: arguments c settings := by
        rw [arguments, List.flatMap_cons, ← arguments, hvalue]
        rfl
      have hstored : storeOption result s.option value
          = .ok { result with overrides := result.overrides.adopt c s } := by
        rw [storeOption_option, c.store_value hc s value hvalue]
        rfl
      rw [hsplit, parseArguments, hdashes, if_neg (not_not.mpr rfl), if_neg hhelp,
        if_neg (not_not.mpr hknown), if_neg (hnew s List.mem_cons_self)]
      simp only [if_neg ((hc.plain c s value hvalue).bare.ne_nil isWhitespace), hstored]
      exact ih _ _ hrest (fun s' hs' => hthere s' (List.mem_cons_of_mem s hs'))
        (names_new Setting.option Setting.option_injective s settings seen hfirst hnew)

/-- A configuration given as arguments is read back. -/
theorem parseMinerCommandLine_write (hc : c.Writable) (settings : List Setting)
    (h : Lists c settings) :
    parseMinerCommandLine (arguments c settings) = .ok ⟨none, c, false⟩ := by
  rw [parseMinerCommandLine, parseArguments_write c hc settings _ [] h.once
    (fun s hs => (h.complete s).mp hs) (fun _ _ => List.not_mem_nil),
    MinerConfig.adoptAll_complete c settings h.complete]

end

/-- The key of a line that has one. -/
def lineKey (rawLine : Text) : Option Text :=
  if isSkipped (trim rawLine) then none
  else (splitLine (trim rawLine)).map fun parts => trim parts.1

/-- The keys on the lines of a text that are not comments. -/
def configKeys (configText : Text) : List Text :=
  (Lines.lines newline configText).filterMap lineKey

/-- What a line that is accepted does to the keys seen. -/
theorem parseConfigLine_seen (lineNumber : Nat) (rawLine : Text) (config : MinerConfig)
    (seen : List Text) (after : MinerConfig × List Text)
    (h : parseConfigLine lineNumber rawLine config seen = .ok after) :
    (lineKey rawLine = none ∧ after.2 = seen) ∨
      ∃ key, lineKey rawLine = some key ∧ key ∉ seen ∧ after.2 = key :: seen := by
  unfold parseConfigLine at h
  unfold lineKey
  by_cases hskipped : isSkipped (trim rawLine) = true
  · simp only [if_pos hskipped, Except.ok.injEq] at h
    exact Or.inl ⟨if_pos hskipped, by rw [← h]⟩
  rw [if_neg hskipped]
  simp only [if_neg hskipped] at h
  cases hsplit : splitLine (trim rawLine) with
  | none => simp only [hsplit, reduceCtorEq] at h
  | some parts =>
      simp only [hsplit] at h
      refine Or.inr ⟨trim parts.1, rfl, ?_⟩
      by_cases hkey : trim parts.1 = []
      · simp only [if_pos hkey, reduceCtorEq] at h
      by_cases hvalue : trim parts.2 = []
      · simp only [if_neg hkey, if_pos hvalue, reduceCtorEq] at h
      by_cases hseen : trim parts.1 ∈ seen
      · simp only [if_neg hkey, if_neg hvalue, if_pos hseen, reduceCtorEq] at h
      simp only [if_neg hkey, if_neg hvalue, if_neg hseen] at h
      cases hstore : storeKey config (trim parts.1) (trim parts.2) with
      | error e => simp only [hstore, reduceCtorEq] at h
      | ok config' =>
          simp only [hstore, Except.ok.injEq] at h
          exact ⟨hseen, by rw [← h]⟩

/-- A name that was not seen comes in front of others that were seen neither
    before it nor as it. -/
theorem nodup_cons_new (name : Text) (names seen : List Text) (hnew : name ∉ seen)
    (h : names.Nodup ∧ ∀ n ∈ names, n ∉ name :: seen) :
    (name :: names).Nodup ∧ ∀ n ∈ name :: names, n ∉ seen := by
  rcases h with ⟨hnodup, hfresh⟩
  refine ⟨List.nodup_cons.mpr ⟨fun hmem => hfresh name hmem List.mem_cons_self, hnodup⟩,
    List.forall_mem_cons.mpr ⟨hnew, fun n hn hold => ?_⟩⟩
  exact hfresh n hn (List.mem_cons_of_mem name hold)

/-- A file that is accepted has no key twice. -/
theorem parseConfigLines_nodup (ls : List Text) (lineNumber : Nat) (config : MinerConfig)
    (seen : List Text) (result : MinerConfig)
    (h : parseConfigLines lineNumber ls config seen = .ok result) :
    (ls.filterMap lineKey).Nodup ∧ ∀ key ∈ ls.filterMap lineKey, key ∉ seen := by
  induction ls generalizing lineNumber config seen with
  | nil => exact ⟨List.nodup_nil, fun _ h => absurd h List.not_mem_nil⟩
  | cons l ls ih =>
      rw [parseConfigLines] at h
      cases hline : parseConfigLine (lineNumber + 1) l config seen with
      | error e => simp only [hline, reduceCtorEq] at h
      | ok after =>
          simp only [hline] at h
          have htail := ih _ _ _ h
          rcases parseConfigLine_seen _ l config seen after hline with
            ⟨hkey, hseen⟩ | ⟨key, hkey, hnew, hseen⟩
          · rw [List.filterMap_cons_none hkey, ← hseen]
            exact htail
          · rw [hseen] at htail
            rw [List.filterMap_cons_some hkey]
            exact nodup_cons_new key _ seen hnew htail

/-- The arguments that stand where an option is expected. -/
def optionsOf : List Text → List Text
  | [] => []
  | option :: rest =>
      if option = text "--help" then option :: optionsOf rest
      else match rest with
        | [] => [option]
        | _ :: rest => option :: optionsOf rest

/-- Arguments that are accepted have no option twice. The induction is on how
    many are left, since most options take the next one too. -/
theorem parseArguments_nodup (left : Nat) :
    ∀ (args : List Text) (result : MinerCommandLine) (seen : List Text)
      (final : MinerCommandLine), args.length ≤ left →
      parseArguments args result seen = .ok final →
      (optionsOf args).Nodup ∧ ∀ option ∈ optionsOf args, option ∉ seen := by
  induction left with
  | zero =>
      intro args result seen final hlen _
      rw [List.length_eq_zero_iff.mp (Nat.le_zero.mp hlen)]
      exact ⟨List.nodup_nil, fun _ h => absurd h List.not_mem_nil⟩
  | succ k ih =>
      intro args result seen final hlen h
      cases args with
      | nil => exact ⟨List.nodup_nil, fun _ h => absurd h List.not_mem_nil⟩
      | cons option rest =>
          rw [List.length_cons] at hlen
          unfold parseArguments at h
          unfold optionsOf
          by_cases hdashes : ¬(text "--").isPrefixOf option = true
          · simp only [if_pos hdashes, reduceCtorEq] at h
          rw [if_neg hdashes] at h
          by_cases hhelp : option = text "--help"
          · rw [if_pos hhelp] at h ⊢
            by_cases hseen : option ∈ seen
            · simp only [if_pos hseen, reduceCtorEq] at h
            rw [if_neg hseen] at h
            exact nodup_cons_new option _ seen hseen (ih rest _ _ final (by omega) h)
          rw [if_neg hhelp] at h ⊢
          by_cases hknown : option ∉ knownOptions
          · simp only [if_pos hknown, reduceCtorEq] at h
          rw [if_neg hknown] at h
          by_cases hseen : option ∈ seen
          · simp only [if_pos hseen, reduceCtorEq] at h
          rw [if_neg hseen] at h
          cases rest with
          | nil => simp only [reduceCtorEq] at h
          | cons value rest =>
              by_cases hempty : value = []
              · simp only [if_pos hempty, reduceCtorEq] at h
              simp only [if_neg hempty] at h
              cases hstore : storeOption result option value with
              | error e => simp only [hstore, reduceCtorEq] at h
              | ok result' =>
                  simp only [hstore] at h
                  rw [List.length_cons] at hlen
                  exact nodup_cons_new option _ seen hseen (ih rest _ _ final (by omega) h)

/-- The settings that are there, in the order of the record. -/
def settingsOf (c : MinerConfig) : List Setting :=
  Setting.all.filter fun s => (c.value s).isSome

theorem lists_settingsOf (c : MinerConfig) : Lists c (settingsOf c) := by
  refine ⟨List.Nodup.filter _ (by decide), fun s => ?_⟩
  rw [settingsOf, List.mem_filter]
  exact and_iff_right (Setting.mem_all s)

/-- A line with nothing but the setting. -/
def bareLine (s : Setting) : ConfigLine :=
  .entry s [] [] [] []

/-- Every configuration can be written down. -/
theorem writes_settingsOf (c : MinerConfig) :
    Writes c ((settingsOf c).map bareLine)
      (Lines.terminated newline (((settingsOf c).map bareLine).map (ConfigLine.write c))) := by
  have hempty : Margin [] := fun _ h => absurd h List.not_mem_nil
  have hsettings : ((settingsOf c).map bareLine).filterMap ConfigLine.setting = settingsOf c := by
    rw [List.filterMap_map]
    exact List.filterMap_some
  refine ⟨fun l hl => ?_, ?_, fun s => ?_, Or.inl rfl⟩
  · rcases List.mem_map.mp hl with ⟨s, _, rfl⟩
    exact ⟨hempty, hempty, hempty, hempty⟩
  · rw [hsettings]
    exact (lists_settingsOf c).once
  · rw [hsettings]
    exact (lists_settingsOf c).complete s

/-- Files and arguments say the same. A configuration written to a file or
    given as arguments is read back; split between the two, with anything in the
    file in the place of what the arguments set, it resolves as the whole does.
    A key that stands on two lines and an option that stands twice are
    refused. -/
theorem config_interchange (c : MinerConfig) (hc : c.Writable) :
    (∀ ls configText, Writes c ls configText → parseMinerConfigText configText = .ok c) ∧
    (∀ settings, Lists c settings →
      parseMinerCommandLine (arguments c settings) = .ok ⟨none, c, false⟩) ∧
    (∀ (onCommandLine : Setting → Bool) base ls configText settings hardwareThreads,
      base.Writable →
      (∀ s, ¬(onCommandLine s = true ∧ (c.value s).isSome = true) →
        MinerConfig.SameAt base c s) →
      Writes base ls configText → Lists (c.restrict onCommandLine) settings →
      ∃ file commandLine, parseMinerConfigText configText = .ok file ∧
        parseMinerCommandLine (arguments (c.restrict onCommandLine) settings)
          = .ok commandLine ∧
        resolveMinerConfig (mergeMinerConfig file commandLine.overrides) hardwareThreads
          = resolveMinerConfig c hardwareThreads) ∧
    (∀ configText, ¬(configKeys configText).Nodup →
      ∃ e, parseMinerConfigText configText = .error e) ∧
    ∀ args, ¬(optionsOf args).Nodup → ∃ e, parseMinerCommandLine args = .error e := by
  refine ⟨parseMinerConfigText_write c hc, parseMinerCommandLine_write c hc, ?_, ?_, ?_⟩
  · intro onCommandLine base ls configText settings hardwareThreads hbase hagree hwrites hlists
    -- Both parts are read back, and merging puts them together.
    refine ⟨base, ⟨none, c.restrict onCommandLine, false⟩,
      parseMinerConfigText_write base hbase ls configText hwrites,
      parseMinerCommandLine_write _ (hc.restrict c onCommandLine) settings hlists, ?_⟩
    rw [MinerConfig.mergeMinerConfig_restrict c base onCommandLine hagree]
  · intro configText hkeys
    cases hparse : parseMinerConfigText configText with
    | error e => exact ⟨e, rfl⟩
    | ok config => exact absurd (parseConfigLines_nodup _ _ _ _ config hparse).1 hkeys
  · intro args hoptions
    cases hparse : parseMinerCommandLine args with
    | error e => exact ⟨e, rfl⟩
    | ok result =>
        have hread := parseArguments_nodup _ args _ _ result (Nat.le_refl _) hparse
        exact absurd hread.1 hoptions

/-- A configuration for a test network. -/
def regtestConfig : MinerConfig :=
  ⟨some (text "regtest"), some (text "mcrt1ztest"), some 6, some 0, some 15, none, none⟩

theorem config_interchange_regtest :
    parseMinerConfigText (Lines.terminated newline
      (((settingsOf regtestConfig).map bareLine).map (ConfigLine.write regtestConfig)))
      = .ok regtestConfig := by
  have hplain (s : String) (init : Text) (a b : UInt8) (rest : Text) (hhead : text s = a :: rest)
      (hlast : text s = init ++ [b]) (ha : isWhitespace a = false) (hb : isWhitespace b = false)
      (hline : newline ∉ text s) : PlainText (text s) :=
    ⟨⟨⟨a, rest, hhead, ha⟩, ⟨init, b, hlast, hb⟩⟩, hline⟩
  have hwritable : regtestConfig.Writable := by
    refine ⟨fun s hs => ?_, fun s hs => ?_, by decide, fun s hs => ?_, fun s hs => ?_⟩
    · rw [← Option.some.inj hs]
      exact hplain "regtest" _ _ _ _ rfl (List.dropLast_concat_getLast (by decide)).symm (by decide)
        (by decide) (by decide)
    · rw [← Option.some.inj hs]
      exact hplain "mcrt1ztest" _ _ _ _ rfl (List.dropLast_concat_getLast (by decide)).symm
        (by decide) (by decide) (by decide)
    · exact absurd hs (by simp only [regtestConfig, reduceCtorEq, not_false_eq_true])
    · exact absurd hs (by simp only [regtestConfig, reduceCtorEq, not_false_eq_true])
  exact (config_interchange regtestConfig hwritable).1 _ _ (writes_settingsOf regtestConfig)

end MercaMiner
