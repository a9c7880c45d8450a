import Overseer.Proofs.Pattern.Literals
import Overseer.Proofs.Session.LineCallOutcomes

/-!
# Servers that are ready

A call that waits until a server is ready resolves with the first line that says where the server
can be reached, and one that waits until a server has taken in a change with the first line that
says so (`Session.readiness_calls_resolve`). What the two patterns are found in is said of the texts
that stand in a line, wherever and however often they do. -/

namespace Overseer

open Number Pattern Timeline World

namespace Session

variable {text : Array Char} {c : Cursor} {k : Continuation} {line : String}

/-- The texts that say where a server can be reached, up to the address itself. -/
def readyWords : List String := ["Ready on http://", "Ready on https://"]

/-- Where a server can be reached, as the first place in a line says that says so at all. -/
def url? (line : String) : Option String :=
  (from? readyWords line).map fun rest => String.ofList (rest.drop "Ready on ".length)

def address : Term :=
  .following "http".toList
    (.seq (.rep .greedy 0 (some 1) (.char false 's'.toNat))
      (.following "://".toList (.rep .greedy 0 none (.any false))))

theorem compile_readyPattern :
    readyPattern.compile = .ok
      { text := "Ready on (?P<url>https?://.*)"
        term := .following "Ready on ".toList (.group 1 address)
        groups := 1, names := [("url", 1)] } := by
  decide +kernel

/-- An address matches where it stands, with or without an `s`, and takes the rest of the line. -/
theorem run_address (hfree : '\n' ∉ text.toList.drop c.pos) (hk : ∀ d, (k d).isSome = true) :
    address.run text c k =
      if "http://".toList <+: text.toList.drop c.pos ∨ "https://".toList <+: text.toList.drop c.pos
      then k { c with pos := text.size } else none := by
  have hplain : "http://".toList <+: text.toList.drop c.pos ↔
      "http".toList <+: text.toList.drop c.pos ∧ "://".toList <+: text.toList.drop (c.pos + 4) := by
    have h : "http://".toList = "http".toList ++ "://".toList := by decide
    rw [h, prefix_append_iff, List.drop_drop]
    rfl
  have hsecure : "https://".toList <+: text.toList.drop c.pos ↔
      "http".toList <+: text.toList.drop c.pos ∧ ['s'] <+: text.toList.drop (c.pos + 4) ∧
        "://".toList <+: text.toList.drop (c.pos + 4 + 1) := by
    have h : "https://".toList = "http".toList ++ (['s'] ++ "://".toList) := by decide
    rw [h, prefix_append_iff, prefix_append_iff, List.drop_drop, List.drop_drop]
    rfl
  rw [address, run_following]
  by_cases hhttp : "http".toList <+: text.toList.drop c.pos
  · have htail : ∀ p, c.pos ≤ p →
        (Term.following "://".toList (.rep .greedy 0 none (.any false))).run text
            { c with pos := p } k =
          if "://".toList <+: text.toList.drop p then k { c with pos := text.size } else none := by
      intro p hp
      refine run_following_rest (by decide) (fun hm => hfree ?_) (hk _)
      rw [← Nat.add_sub_cancel' hp, ← List.drop_drop] at hm
      exact List.mem_of_mem_drop hm
    rw [if_pos hhttp]
    change (Term.rep .greedy 0 (some 1) (.char false 's'.toNat)).run text
      { c with pos := c.pos + 4 }
      (fun d => (Term.following "://".toList (.rep .greedy 0 none (.any false))).run text d k) = _
    -- with the `s` or without it, the rest is taken to its end
    rw [run_optional, run_char]
    rw [htail (c.pos + 4) (by omega), htail (c.pos + 4 + 1) (by omega), ← ite_and, ite_or_ite]
    refine if_congr ?_ rfl rfl
    rw [hplain, hsecure, ← and_or_left, and_iff_right hhttp]
    exact or_comm
  · rw [if_neg hhttp, if_neg]
    rw [hplain, hsecure, ← and_or_left]
    exact fun h => hhttp h.1

theorem readyWords_iff {rest : List Char} :
    (∃ word ∈ readyWords, word.toList <+: rest) ↔
      "Ready on ".toList <+: rest ∧
        ("http://".toList <+: rest.drop 9 ∨ "https://".toList <+: rest.drop 9) := by
  have hplain : "Ready on http://".toList = "Ready on ".toList ++ "http://".toList := by decide
  have hsecure : "Ready on https://".toList = "Ready on ".toList ++ "https://".toList := by decide
  have hlength : "Ready on ".toList.length = 9 := by decide
  rw [readyWords, exists_mem_pair_iff, hplain, hsecure, prefix_append_iff, prefix_append_iff,
    hlength, and_or_left]

/-- A line says where a server can be reached, and does so nowhere further in front. -/
def Advertised (line url : String) : Prop :=
  ∃ start, line.toList = start ++ ("Ready on ".toList ++ url.toList) ∧
    ("http://".toList <+: url.toList ∨ "https://".toList <+: url.toList) ∧
    ∀ before more, line.toList = before ++ more → before.length < start.length →
      ∀ word ∈ readyWords, ¬ word.toList <+: more

theorem url?_eq_some_iff {url : String} : url? line = some url ↔ Advertised line url := by
  have hdrop : ∀ cs, ("Ready on ".toList ++ cs).drop "Ready on ".length = cs := fun cs => rfl
  have hnine : "Ready on ".length = 9 := by decide
  rw [url?, Option.map_eq_some_iff]
  constructor
  · rintro ⟨rest, hrest, rfl⟩
    obtain ⟨start, hline, hstands, hfirst⟩ := from?_eq_some_iff.mp hrest
    obtain ⟨⟨more, rfl⟩, haddress⟩ := readyWords_iff.mp hstands
    rw [← hnine, hdrop] at haddress
    rw [hdrop]
    have hmore : (String.ofList more).toList = more := String.toList_ofList
    exact ⟨start, by rwa [hmore], by rwa [hmore], hfirst⟩
  · rintro ⟨start, hline, haddress, hfirst⟩
    refine ⟨_, from?_eq_some_iff.mpr ⟨start, hline, readyWords_iff.mpr ⟨?_, ?_⟩, hfirst⟩, ?_⟩
    · exact List.prefix_append ..
    · rwa [← hnine, hdrop]
    · rw [hdrop, String.ofList_toList]

theorem run_ready (hfree : '\n' ∉ text.toList) :
    (Term.following "Ready on ".toList (.group 1 address)).run text c some =
      if readyWords.any (·.toList.isPrefixOf (text.toList.drop c.pos)) then
        some { pos := text.size
               groups := c.groups.setIfInBounds 1 (some (c.pos + 9, text.size)) }
      else none := by
  have hgroup : ∀ d : Cursor, (Term.group 1 address).run text d some =
      address.run text d
        (fun e => some { e with groups := e.groups.setIfInBounds 1 (some (d.pos, e.pos)) }) :=
    fun d => rfl
  rw [run_following, hgroup,
    run_address (fun hm => hfree (List.mem_of_mem_drop hm)) fun d => rfl, ← ite_and]
  refine if_congr ?_ rfl rfl
  rw [any_isPrefixOf_iff, readyWords_iff, List.drop_drop]
  rfl

def readyReply (line : String) : Option Answer :=
  (url? line).map fun url => .groups [("url", some url)]

theorem search_readyPattern {compiled : Compiled} (hcompile : readyPattern.compile = .ok compiled)
    (hline : '\n' ∉ line.toList) :
    (compiled.search line).map (lineAnswer .groups) = readyReply line := by
  rw [compile_readyPattern] at hcompile
  obtain rfl := Except.ok.inj hcompile
  rw [readyReply, url?, Option.map_map]
  refine search_eq_from? fun i hi => ?_
  have hall : (line.toList.drop (i + 9)).take (line.toList.length - (i + 9)) =
      (line.toList.drop i).drop 9 := by
    rw [List.drop_drop, ← List.length_drop, List.take_length]
  have htext : '\n' ∉ line.toList.toArray.toList := hline
  rw [Compiled.matchAt, run_ready htext, List.toList_toArray]
  by_cases hstands : readyWords.any (·.toList.isPrefixOf (line.toList.drop i)) = true
  · rw [if_pos hstands, if_pos hstands]
    exact congrArg (fun cs => some (Answer.groups [("url", some (String.ofList cs))])) hall
  · rw [if_neg hstands, if_neg hstands]
    rfl

def reloadWords : List String := ["Detected changes, restarted server", "Reloading local server..."]

theorem compile_reloadPattern :
    reloadPattern.compile = .ok
      { text := "Detected changes, restarted server|Reloading local server\\.\\.\\."
        term := .alt (.spelled "Detected changes, restarted server".toList)
          (.spelled "Reloading local server...".toList)
        groups := 0, names := [] } := by
  decide +kernel

theorem run_reload {read : Cursor → Answer} (hread : ∀ d, read d = .nothing) :
    ((Term.alt (.spelled "Detected changes, restarted server".toList)
        (.spelled "Reloading local server...".toList)).run text c some).map read =
      if reloadWords.any (·.toList.isPrefixOf (text.toList.drop c.pos)) then some .nothing
      else none := by
  rw [run_alt, run_spelled, run_spelled, Option.map_or, apply_ite (Option.map read),
    apply_ite (Option.map read), Option.map_some, Option.map_some, hread, hread, Option.map_none,
    ite_or_ite]
  refine if_congr ?_ rfl rfl
  rw [any_isPrefixOf_iff, reloadWords, exists_mem_pair_iff]

def Reloaded (line : String) : Prop :=
  "Detected changes, restarted server".toList <:+: line.toList ∨
    "Reloading local server...".toList <:+: line.toList

instance (line : String) : Decidable (Reloaded line) :=
  inferInstanceAs (Decidable (_ ∨ _))

/-- What a call that waits until a server has taken in a change makes of a line. -/
def reloadReply (line : String) : Option Answer :=
  if Reloaded line then some .nothing else none

theorem search_reloadPattern {compiled : Compiled} (hcompile : reloadPattern.compile = .ok compiled)
    (line : String) : (compiled.search line).map (lineAnswer .nothing) = reloadReply line := by
  have hfirst : (compiled.search line).map (lineAnswer .nothing) =
      (from? reloadWords line).map fun _ => .nothing := by
    rw [compile_reloadPattern] at hcompile
    obtain rfl := Except.ok.inj hcompile
    refine search_eq_from? fun i hi => ?_
    rw [Compiled.matchAt, Option.map_map]
    exact run_reload fun d => rfl
  rw [hfirst, reloadReply]
  have hreloaded : (from? reloadWords line).isSome = true ↔ Reloaded line := by
    rw [isSome_from?_iff, reloadWords, exists_mem_pair_iff]
    rfl
  cases hfrom : from? reloadWords line with
  | some rest => exact (if_pos (hreloaded.mp (by rw [hfrom]; rfl))).symm
  | none => exact (if_neg fun h => by simpa [hfrom] using hreloaded.mpr h).symm

/-- A call that waits until a server is ready resolves with the first line since then that says
where it can be reached, and one that waits until a server has taken in a change with the first line
that says so, and with no other line. -/
theorem readiness_calls_resolve (s : Session) (w : System) (others : List Birth)
    (history moves : List (Move Command)) (step : Step Command) (name : String)
    (limit : Option Seconds) (handle : Handle) :
    let before := play machinery { state := s.afresh w others } history
    s.handles = [] → before.state.handle? name = some handle →
    (step.command? = some (.ready name limit) →
      Resolves before ⟨handle.process, .groups, readyPattern,
        limit.getD before.state.settings.readyTimeout⟩ readyReply step moves) ∧
    (step.command? = some (.reload name limit) →
      Resolves before ⟨handle.process, .nothing, reloadPattern, limit.getD handle.readLimit⟩
        reloadReply step moves) ∧
    (∀ compiled line, readyPattern.compile = .ok compiled → '\n' ∉ line.toList →
      (compiled.search line).map (lineAnswer .groups) = readyReply line) ∧
    (∀ compiled line, reloadPattern.compile = .ok compiled →
      (compiled.search line).map (lineAnswer .nothing) = reloadReply line) ∧
    (∀ line answer, readyReply line = some answer ↔
      ∃ url, Advertised line url ∧ answer = .groups [("url", some url)]) ∧
    ∀ line answer, reloadReply line = some answer ↔ Reloaded line ∧ answer = .nothing := by
  intro before hs hhandle
  have hregular : Regular before := ⟨s, w, others, history, hs, rfl⟩
  have hready : before.state.lineCall? (.ready name limit) = some ⟨handle.process, .groups,
      readyPattern, limit.getD before.state.settings.readyTimeout⟩ :=
    congrArg (Option.map _) hhandle
  have hreload : before.state.lineCall? (.reload name limit) = some ⟨handle.process, .nothing,
      reloadPattern, limit.getD handle.readLimit⟩ := congrArg (Option.map _) hhandle
  refine ⟨fun hstep => ?_, fun hstep => ?_, fun compiled line => search_readyPattern,
    fun compiled line hcompile => search_reloadPattern hcompile line, fun line answer => ?_,
    fun line answer => ?_⟩
  · exact hregular.resolves hstep hready compile_readyPattern
      (fun line hline => (search_readyPattern compile_readyPattern hline).symm) moves
  · exact hregular.resolves hstep hreload compile_reloadPattern
      (fun line _ => (search_reloadPattern compile_reloadPattern line).symm) moves
  · rw [readyReply, Option.map_eq_some_iff]
    simp only [url?_eq_some_iff, eq_comm (a := answer)]
  · rw [reloadReply, Option.ite_none_right_eq_some, Option.some_inj, eq_comm (a := answer)]

/-- A line that only seems to say where a server is, one that says so behind such a place, and two
that say that it reloads, the first of them not quite. -/
theorem readiness_calls_resolve_among_lines :
    let bytes (lines : String) : List UInt8 := lines.toList.map (·.toNat.toUInt8)
    let program : Program :=
      { shell := { pid := 100, ppid := 1, pgid := 100 }
        events := [(3, .output (bytes "Ready on https:/a\n")),
          (5, .output (bytes "Ready on http:b Ready on https://c Ready on\n")),
          (7, .output (bytes "Reloading local server..\nReloading local server...\n"))] }
    let w : System := { programs := [.program program] }
    let history : List (Move Command) :=
      [.begin (.act (.start "h" { command := "wrangler dev" } false))]
    let before := play machinery { state := ({} : Session).afresh w [] } history
    let ready : Step Command := .background "ready" (.act (.ready "h" (some (.whole 1))))
    let reload : Step Command := .background "reload" (.act (.reload "h" (some (.whole 1))))
    let ticks : List (Move Command) := List.replicate 3 .tick
    before.state.handles.map (·.1) = ["h"] ∧
      (play machinery before (.begin ready :: ticks)).tasks[before.tasks.size]? =
        some (.ended 5 (.result (.ok (.groups [("url", some "https://c Ready on")])))) ∧
      (play machinery before (.begin reload :: ticks)).tasks[before.tasks.size]? =
        some (.ended 7 (.result (.ok .nothing))) := by
  intro bytes program w history before ready reload ticks
  let handle : Handle :=
    { process := 0, command := "wrangler dev", readLimit := ({} : Settings).readTimeout }
  have hhandles : before.state.handles.map (·.1) = ["h"] := by decide +kernel
  have hhandle : before.state.handle? "h" = some handle := by decide +kernel
  have hopen : (before.state.fleet.log 0).closed = false := by decide +kernel
  have hlimit : (Seconds.whole 1).deadline before.state.now = some 1000000000 := by decide +kernel
  have hall := fun step => readiness_calls_resolve {} w [] history ticks step "h" (some (.whole 1))
    handle rfl
  have hready : Resolves before ⟨0, .groups, readyPattern, .whole 1⟩ readyReply ready ticks :=
    (hall ready hhandle).1 rfl
  have hreload : Resolves before ⟨0, .nothing, reloadPattern, .whole 1⟩ reloadReply reload ticks :=
    (hall reload hhandle).2.1 rfl
  have hcancels : ∀ other, Move.begin other ∈ ticks → other.cancels = false := by
    intro other hm
    cases List.eq_of_mem_replicate hm
  refine ⟨hhandles, ?_, ?_⟩
  · have hseeming : url? "Ready on https:/a" = none := by decide +kernel
    have hboth :
        url? "Ready on http:b Ready on https://c Ready on" = some "https://c Ready on" := by
      decide +kernel
    obtain ⟨hlines, hclosing⟩ : (course 0 before {} (.begin ready :: ticks)).lines =
        [(3, "Ready on https:/a")] ++ (5, "Ready on http:b Ready on https://c Ready on") ::
          [(7, "Reloading local server.."), (7, "Reloading local server...")] ∧
        (course 0 before {} (.begin ready :: ticks)).closing = none := by
      decide +kernel
    refine hready.first hopen hlines hclosing ?_ hcancels ?_ ?_
    · intro deadline hd
      obtain rfl := Option.some.inj (hlimit.symm.trans hd)
      decide
    · simp [readyReply, hseeming]
    · rw [readyReply, hboth]
      rfl
  · obtain ⟨hlines, hclosing⟩ : (course 0 before {} (.begin reload :: ticks)).lines =
        [(3, "Ready on https:/a"), (5, "Ready on http:b Ready on https://c Ready on"),
          (7, "Reloading local server..")] ++ (7, "Reloading local server...") :: [] ∧
        (course 0 before {} (.begin reload :: ticks)).closing = none := by
      decide +kernel
    have hnearly : ¬ Reloaded "Ready on https:/a" ∧
        ¬ Reloaded "Ready on http:b Ready on https://c Ready on" ∧
        ¬ Reloaded "Reloading local server.." := by decide +kernel
    refine hreload.first hopen hlines hclosing ?_ hcancels ?_ (if_pos (by decide +kernel))
    · intro deadline hd
      obtain rfl := Option.some.inj (hlimit.symm.trans hd)
      decide
    · simp [reloadReply, hnearly]

end Session

end Overseer
