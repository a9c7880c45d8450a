import Overseer.Proofs.Settings.Bounds

/-!
# Loading settings again

Settings that were loaded can be written back to the environment (`Settings.toEnvironment`), and
loading them again changes nothing: texts are trimmed already, switches are written as words that
switch, and the text of a limit is read as the limit, which is within its bounds already. -/

namespace Overseer

open Number Text

variable {s : String} {cs : List Char} {value : Option String} {name : String}

structure Trimmed (s : String) : Prop where
  nonempty : s ≠ ""
  first : ∀ c ∈ s.toList.head?, isBlank c = false
  last : ∀ c ∈ s.toList.getLast?, isBlank c = false

theorem head_dropWhile {p : Char → Bool} (cs : List Char) :
    ∀ c ∈ (cs.dropWhile p).head?, p c = false := by
  induction cs with
  | nil => simp
  | cons c cs ih =>
    rw [List.dropWhile_cons]
    split
    next => exact ih
    next hc =>
      intro d hd
      obtain rfl : c = d := Option.some.inj hd
      exact Bool.not_eq_true _ ▸ hc

theorem dropWhile_of_head {p : Char → Bool} (h : ∀ c ∈ cs.head?, p c = false) :
    cs.dropWhile p = cs := by
  cases cs with
  | nil => rfl
  | cons c cs => rw [List.dropWhile_cons, h c rfl, if_neg Bool.false_ne_true]

/-- A text with nothing but blanks taken off its end begins as it did. -/
theorem head_rdropWhile {p : Char → Bool} (h : ∀ c ∈ cs.head?, p c = false) :
    ∀ c ∈ (cs.reverse.dropWhile p).reverse.head?, p c = false := by
  intro c hc
  obtain ⟨taken, htaken⟩ := List.dropWhile_suffix p (l := cs.reverse)
  have hsplit : (cs.reverse.dropWhile p).reverse ++ taken.reverse = cs := by
    rw [← List.reverse_append, htaken, List.reverse_reverse]
  refine h c ?_
  rw [← hsplit, List.head?_append, Option.mem_def.mp hc]
  rfl

theorem trimmed_trim (h : trim s ≠ "") : Trimmed (trim s) where
  nonempty := h
  first := by
    rw [trim, String.toList_ofList]
    exact head_rdropWhile (head_dropWhile s.toList)
  last := by
    rw [trim, String.toList_ofList, trimBlanks, List.getLast?_reverse]
    exact head_dropWhile _

theorem trimmed_of_trim (h : trim s = s) (hne : s ≠ "") : Trimmed s := by
  rw [← h] at hne ⊢
  exact trimmed_trim hne

theorem Trimmed.trim (h : Trimmed s) : trim s = s := by
  rw [Text.trim, trimBlanks, dropWhile_of_head h.first, dropWhile_of_head, List.reverse_reverse,
    String.ofList_toList]
  rw [List.head?_reverse]
  exact h.last

theorem trimmed_readText {default : String} (hdefault : Trimmed default) (value : Option String) :
    Trimmed (readText value default) := by
  unfold readText
  split
  · exact hdefault
  · split
    · exact hdefault
    next htrim => exact trimmed_trim htrim

theorem Trimmed.readText (h : Trimmed s) (default : String) : readText (some s) default = s := by
  rw [Overseer.readText, h.trim, if_neg h.nonempty]

theorem forwardSlashes_toList (s : String) :
    (forwardSlashes s).toList = s.toList.map fun c => if c = '\\' then '/' else c := by
  rw [forwardSlashes, String.toList_ofList]

theorem backslash_not_mem_forwardSlashes (s : String) : '\\' ∉ (forwardSlashes s).toList := by
  rw [forwardSlashes_toList, List.mem_map]
  rintro ⟨c, -, hc⟩
  split at hc
  · exact absurd hc (by decide)
  next hne => exact hne hc

theorem forwardSlashes_of_not_mem (h : '\\' ∉ s.toList) : forwardSlashes s = s := by
  have hsame : s.toList.map (fun c => if c = '\\' then '/' else c) = s.toList := by
    conv_rhs => rw [← List.map_id s.toList]
    exact List.map_congr_left fun c hc => if_neg (ne_of_mem_of_not_mem hc h)
  rw [forwardSlashes, hsame, String.ofList_toList]

theorem Trimmed.forwardSlashes (h : Trimmed s) : Trimmed (forwardSlashes s) := by
  have hblank : ∀ c, isBlank c = false → isBlank (if c = '\\' then '/' else c) = false := by
    intro c hc
    split
    · decide +kernel
    · exact hc
  refine ⟨fun hempty => h.nonempty ?_, ?_, ?_⟩
  · have hnil : s.toList.map (fun c => if c = '\\' then '/' else c) = [] := by
      rw [← forwardSlashes_toList, hempty]
      rfl
    rw [← String.ofList_toList (s := s), List.map_eq_nil_iff.mp hnil]
  · rw [forwardSlashes_toList, List.head?_map]
    rintro _ hc
    obtain ⟨c, hmem, rfl⟩ := Option.map_eq_some_iff.mp hc
    exact hblank c (h.first c hmem)
  · rw [forwardSlashes_toList, List.getLast?_map]
    rintro _ hc
    obtain ⟨c, hmem, rfl⟩ := Option.map_eq_some_iff.mp hc
    exact hblank c (h.last c hmem)

variable {default minimum maximum limit : Seconds}

structure Readable (minimum maximum limit : Seconds) : Prop where
  real : ∃ x : Binary64, limit = .real x ∧ x.Canonical
  held : Seconds.clamp minimum maximum limit = limit

theorem readable_clamp (hbounds : minimum.AtMost maximum)
    (hmin : ∃ x : Binary64, minimum = .real x ∧ x.Canonical)
    (hmax : ∃ x : Binary64, maximum = .real x ∧ x.Canonical) {x : Binary64} (hx : x.Canonical) :
    Readable minimum maximum (Seconds.clamp minimum maximum (.real x)) where
  real := by
    obtain ⟨heq, -⟩ | ⟨heq, -⟩ | ⟨heq, -⟩ := Seconds.clamp_cases minimum maximum (.real x)
    · rw [heq]
      exact hmax
    · exact ⟨x, heq, hx⟩
    · rw [heq]
      exact hmin
  held := Seconds.clamp_clamp hbounds (.real x)

theorem readable_readLimit (hbounds : minimum.AtMost maximum)
    (hmin : ∃ x : Binary64, minimum = .real x ∧ x.Canonical)
    (hmax : ∃ x : Binary64, maximum = .real x ∧ x.Canonical)
    (hdefault : Readable minimum maximum default) (value : Option String) :
    Readable minimum maximum (readLimit value default minimum maximum) := by
  rw [readLimit_eq]
  cases hread : value.bind Binary64.read? with
  | none => exact hdefault
  | some x =>
    obtain ⟨text, -, hx⟩ := Option.bind_eq_some_iff.mp hread
    exact readable_clamp hbounds hmin hmax (Binary64.canonical_read? hx)

theorem Readable.readLimit (h : Readable minimum maximum limit) (default : Seconds) :
    readLimit (some limit.text) default minimum maximum = limit := by
  obtain ⟨x, rfl, hx⟩ := h.real
  rw [readLimit_eq, Option.bind_some, Seconds.text, Binary64.read?_text hx, Option.map_some,
    Option.getD_some]
  exact h.held

theorem Readable.same (h : Readable minimum maximum limit) (hbounds : minimum.AtMost maximum) :
    limit.same limit = true := by
  have hin := Seconds.clamp_within hbounds limit
  rw [h.held] at hin
  exact Seconds.same_refl hin.1.2.1

theorem exists_real_ofDecimal (digits : Nat) (exponent : Int) :
    ∃ x : Binary64, Seconds.ofDecimal digits exponent = .real x ∧ x.Canonical :=
  ⟨_, rfl, Binary64.canonical_ofDecimal _ _ _⟩

theorem readable_ofDecimal {digits : Nat} {exponent : Int}
    (h : Seconds.clamp minimum maximum (.ofDecimal digits exponent) = .ofDecimal digits exponent) :
    Readable minimum maximum (.ofDecimal digits exponent) :=
  ⟨exists_real_ofDecimal _ _, h⟩

namespace Environment

variable {env upper : Environment} {text : String}

theorem get?_overlay_of_notMem (h : name ∉ upper.map Prod.fst) :
    (env.overlay upper).get? name = env.get? name := by
  induction upper generalizing env with
  | nil => rfl
  | cons entry upper ih =>
    rw [List.map_cons, List.mem_cons, not_or] at h
    exact (ih h.2).trans ((get?_set _ _ _ _).trans (if_neg h.1))

theorem get?_overlay_of_mem (hnames : (upper.map Prod.fst).Nodup) (h : (name, text) ∈ upper) :
    (env.overlay upper).get? name = some text := by
  induction upper generalizing env with
  | nil => cases h
  | cons entry upper ih =>
    rw [List.map_cons, List.nodup_cons] at hnames
    rcases List.mem_cons.mp h with rfl | hmem
    · exact (get?_overlay_of_notMem hnames.1).trans ((get?_set _ _ _ _).trans (if_pos rfl))
    · exact ih hnames.2 hmem

end Environment

namespace Settings

def toEnvironment (s : Settings) : Environment :=
  [("E2E_CLI_PREFIX", s.cliPrefix), ("E2E_CLI", s.cliPath),
    ("E2E_RUN_TIMEOUT", s.runTimeout.text), ("E2E_READ_TIMEOUT", s.readTimeout.text),
    ("E2E_READY_TIMEOUT", s.readyTimeout.text), ("E2E_DEBUG_ENV", s.debugVariable),
    ("E2E_ECHO_OUTPUT", toString s.echoOutput), ("E2E_LOG_DEBUG", toString s.logDebug),
    ("E2E_TERM_TIMEOUT", s.termTimeout.text), ("E2E_KILL_TIMEOUT", s.killTimeout.text),
    ("E2E_DRAIN_TIMEOUT", s.drainTimeout.text)]

structure Loaded (s : Settings) : Prop where
  cliPrefix : Trimmed s.cliPrefix
  cliPath : Trimmed s.cliPath
  slashes : '\\' ∉ s.cliPath.toList
  debugVariable : Trimmed s.debugVariable
  runTimeout : Readable leastLimit greatestLimit s.runTimeout
  readTimeout : Readable leastLimit greatestLimit s.readTimeout
  readyTimeout : Readable leastLimit greatestLimit s.readyTimeout
  termTimeout : Readable leastLimit greatestEndLimit s.termTimeout
  killTimeout : Readable leastLimit greatestEndLimit s.killTimeout
  drainTimeout : Readable leastLimit greatestEndLimit s.drainTimeout

theorem loaded_load (env : Environment) : (load env).Loaded := by
  have hwrangler : Trimmed "wrangler" := trimmed_of_trim (by decide +kernel) (by decide)
  have hlog : Trimmed "WRANGLER_LOG" := trimmed_of_trim (by decide +kernel) (by decide)
  have hprefix : Trimmed (load env).cliPrefix := trimmed_readText hwrangler _
  have hwait : ∀ value digits, Seconds.clamp leastLimit greatestLimit (.ofDecimal digits 0) =
      .ofDecimal digits 0 → Readable leastLimit greatestLimit
        (Overseer.readLimit value (.ofDecimal digits 0) leastLimit greatestLimit) :=
    fun value digits h => readable_readLimit leastLimit_atMost (exists_real_ofDecimal _ _)
      (exists_real_ofDecimal _ _) (readable_ofDecimal h) value
  have hend : ∀ value digits, Seconds.clamp leastLimit greatestEndLimit (.ofDecimal digits 0) =
      .ofDecimal digits 0 → Readable leastLimit greatestEndLimit
        (Overseer.readLimit value (.ofDecimal digits 0) leastLimit greatestEndLimit) :=
    fun value digits h => readable_readLimit leastLimit_atMost_end (exists_real_ofDecimal _ _)
      (exists_real_ofDecimal _ _) (readable_ofDecimal h) value
  exact
    { cliPrefix := hprefix
      cliPath := (trimmed_readText hprefix _).forwardSlashes
      slashes := backslash_not_mem_forwardSlashes _
      debugVariable := trimmed_readText hlog _
      runTimeout := hwait _ 50 (by decide +kernel)
      readTimeout := hwait _ 10 (by decide +kernel)
      readyTimeout := hwait _ 5 (by decide +kernel)
      termTimeout := hend _ 2 (by decide +kernel)
      killTimeout := hend _ 1 (by decide +kernel)
      drainTimeout := hend _ 1 (by decide +kernel) }

theorem readSwitch_toString (on default : Bool) : readSwitch (some (toString on)) default = on := by
  cases on <;> rfl

/-- Settings that were loaded and written back are loaded again, whatever else is set. -/
theorem Loaded.load_overlay {s : Settings} (h : s.Loaded) (env : Environment) :
    load (env.overlay s.toEnvironment) = s := by
  have hget : ∀ name text, (name, text) ∈ s.toEnvironment →
      (env.overlay s.toEnvironment).get? name = some text :=
    fun name text hmem => Environment.get?_overlay_of_mem (by simp [toEnvironment]) hmem
  have hprefix := hget "E2E_CLI_PREFIX" s.cliPrefix (by simp [toEnvironment])
  have hpath := hget "E2E_CLI" s.cliPath (by simp [toEnvironment])
  have hrun := hget "E2E_RUN_TIMEOUT" s.runTimeout.text (by simp [toEnvironment])
  have hread := hget "E2E_READ_TIMEOUT" s.readTimeout.text (by simp [toEnvironment])
  have hready := hget "E2E_READY_TIMEOUT" s.readyTimeout.text (by simp [toEnvironment])
  have hdebug := hget "E2E_DEBUG_ENV" s.debugVariable (by simp [toEnvironment])
  have hecho := hget "E2E_ECHO_OUTPUT" (toString s.echoOutput) (by simp [toEnvironment])
  have hlog := hget "E2E_LOG_DEBUG" (toString s.logDebug) (by simp [toEnvironment])
  have hterm := hget "E2E_TERM_TIMEOUT" s.termTimeout.text (by simp [toEnvironment])
  have hkill := hget "E2E_KILL_TIMEOUT" s.killTimeout.text (by simp [toEnvironment])
  have hdrain := hget "E2E_DRAIN_TIMEOUT" s.drainTimeout.text (by simp [toEnvironment])
  simp only [load, hprefix, hpath, hrun, hread, hready, hdebug, hecho, hlog, hterm, hkill, hdrain,
    h.cliPrefix.readText, h.cliPath.readText, forwardSlashes_of_not_mem h.slashes,
    h.debugVariable.readText, readSwitch_toString, h.runTimeout.readLimit, h.readTimeout.readLimit,
    h.readyTimeout.readLimit, h.termTimeout.readLimit, h.killTimeout.readLimit,
    h.drainTimeout.readLimit]

theorem Loaded.same {s : Settings} (h : s.Loaded) : s.same s = true := by
  simp only [Settings.same, beq_self_eq_true, h.runTimeout.same leastLimit_atMost,
    h.readTimeout.same leastLimit_atMost, h.readyTimeout.same leastLimit_atMost,
    h.termTimeout.same leastLimit_atMost_end, h.killTimeout.same leastLimit_atMost_end,
    h.drainTimeout.same leastLimit_atMost_end, Bool.and_self]

/-- The texts that are loaded are trimmed, the path has no backslashes, and settings written back to
any environment are loaded again as they were. -/
theorem load_toEnvironment (env : Environment) :
    let s := load env
    (Trimmed s.cliPrefix ∧ Trimmed s.cliPath ∧ Trimmed s.debugVariable) ∧
      '\\' ∉ s.cliPath.toList ∧
      ∀ (other : Environment), load (other.overlay s.toEnvironment) = s ∧
        s.same (load (other.overlay s.toEnvironment)) = true := by
  have h := loaded_load env
  refine ⟨⟨h.cliPrefix, h.cliPath, h.debugVariable⟩, h.slashes, fun other => ?_⟩
  rw [h.load_overlay other]
  exact ⟨rfl, h.same⟩

end Settings

end Overseer
