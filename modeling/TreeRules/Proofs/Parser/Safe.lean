import TreeRules.Proofs.Parser.Budget
import TreeRules.Proofs.Parser.Descent

/-! Rule files by position. The loops over a statement, a block and a file read a token with each
turn, or pass a limit, or end. So a source is read without a panic, whatever it is and whatever the
limits are. -/
namespace TreeRules

open Token (Kind)

/-! Skipping, from the list. -/

namespace Parser

/-- Skips the rest of a statement in which braces are open. -/
def skipOpened (opened : Nat) : Parser Unit := fun s => advance (statementLength opened s.rest) s

/-- One turn of it. -/
def skipTurn (opened : Nat) : Parser (Option Nat) := do
  if ← atEnd then return none
  else
    let kind ← peek
    if kind = .semicolon then
      let _ ← next
      return none
    else if kind = .braceClose ∧ opened = 0 then return none
    else
      let _ ← next
      return some (Cursor.bracesAfter kind opened)

lemma statementLength_cons (opened : Nat) (t : Token) (ts : List Token) :
    statementLength opened (t :: ts) =
      if t.kind = .semicolon then 1
      else if t.kind = .braceClose ∧ opened = 0 then 0
      else statementLength (Cursor.bracesAfter t.kind opened) ts + 1 := by
  obtain ⟨kind,span,text⟩ := t
  cases kind <;> cases opened <;> rfl

lemma skipOpened_eq (opened : Nat) (s : State) :
    skipOpened opened s = (do
      match ← skipTurn opened with
      | none => pure ()
      | some opened => skipOpened opened) s := by
  rw [bind_apply, skipOpened, skipTurn, bind_apply, atEnd]
  cases hr : s.rest with
  | nil => rfl
  | cons t ts =>
    have hpeek : peek s = .ok t.kind s := by
      rw [peek_eq, hr]
      rfl
    rw [statementLength_cons]
    simp only [List.isEmpty_cons, Bool.false_eq_true, if_false, bind_apply, hpeek]
    split_ifs with hsemicolon hclose
    · rw [advance, bind_apply, bind_apply]
      cases next s <;> rfl
    · rfl
    · rw [advance, bind_apply, bind_apply, next, hr]
      dsimp only
      split_ifs <;> rfl

end Parser

namespace Cursor

open TreeRules.Parser (Turn Entry startsItem significant)

variable {i : Input} {tokens : List Token} {c d e : State} (h : Legible i tokens)

namespace Follows

section Skip

include h

/-- A turn that is not the last reads a token; so does the first one, where an item begins. -/
lemma skipTurn (opened : Nat) :
    Follows i tokens (Cursor.skipTurn opened) (Parser.skipTurn opened) c fun o d =>
      (o.isSome = true → Progress c d) ∧
      (c.fatal = none → startsItem (ahead tokens c.pos) = true → c.pos < d.pos) := by
  refine .shouldStop h (fun hend => .pure ⟨nofun,fun hnone hstart => ?_⟩) fun hnone hahead => ?_
  · rw [hend hnone] at hstart
    cases hstart
  refine .peek h fun k hk => ?_
  split_ifs with hsemicolon hclose
  · exact (next h hahead).bind fun _ _ _ ht => .pure ⟨nofun,fun _ _ => ht.pos⟩
  · refine .pure ⟨nofun,fun _ hstart => ?_⟩
    rw [hk, hclose.1] at hstart
    cases hstart
  · exact (next h hahead).bind fun _ _ _ ht => .pure ⟨fun _ => Or.inl ht.pos,fun _ _ => ht.pos⟩

lemma skips {budget opened : Nat} (hbudget : turnsLeft tokens c < budget) :
    Follows i tokens (Cursor.skips budget opened) (Parser.skipOpened opened) c fun _ d =>
      c.fatal = none → startsItem (ahead tokens c.pos) = true → c.pos < d.pos := by
  induction budget generalizing c opened with
  | zero => exact absurd hbudget (Nat.not_lt_zero _)
  | succ budget ih =>
    have hturn := (skipTurn (c := c) h opened).watched fun _ _ => And.left
    refine congr rfl (Parser.skipOpened_eq opened _) (hturn.bind fun o d hd ho => ?_)
    cases o with
    | none => exact .pure ho.2
    | some opened =>
      have hleft := turnsLeft_lt hd (ho.1 rfl)
      exact (ih (by omega)).mono fun _ _ he _ hnone hstart =>
        Nat.lt_of_lt_of_le (ho.2 hnone hstart) he.pos

lemma skipStatement :
    Follows i tokens Cursor.skipStatement Parser.skipStatement c fun _ d =>
      c.fatal = none → startsItem (ahead tokens c.pos) = true → c.pos < d.pos :=
  congr rfl rfl (skips h (h.turnsLeft_lt_budget c))

lemma skipUnexpected (hahead : ahead tokens c.pos ≠ .endOfInput) :
    Follows i tokens Cursor.skipUnexpected Parser.skipUnexpected c fun _ d => c.pos < d.pos := by
  refine (peekText h).bind fun _ d _ hd => (reportHere h _ _).bind fun _ e _ he => ?_
  rw [← hd, ← he] at hahead
  subst hd
  exact (next h hahead).bind fun _ _ _ ht => .pure (he ▸ ht.pos)

/-- A turn that reads what an item begins, or skips what nothing begins with. -/
lemma orUnexpected {α : Type} {q : Cursor (Turn α)} {p : Parser (Turn α)} {k : Kind}
    (hahead : ahead tokens c.pos ≠ .endOfInput)
    (hq : startsItem k = true →
      Follows i tokens q p c fun v d => goesOn v = true → Progress c d) :
    Follows i tokens
      (if startsItem k then q else do
        Cursor.skipUnexpected
        return .skip)
      (if startsItem k then p else do
        Parser.skipUnexpected
        return .skip) c fun v d => goesOn v = true → Progress c d := by
  split_ifs with hstart
  · exact hq hstart
  · exact (skipUnexpected h hahead).bind fun _ _ _ hpos => .pure fun _ => Or.inl hpos

end Skip

section File

variable {calls : Nat} (hdepth : c.depth + calls = i.recursionLimit)
include h hdepth

lemma ruleBody : Follows i tokens (Cursor.ruleBody (calls + 1)) (Parser.ruleBody calls) c
    fun _ d => c.pos < d.pos := by
  refine ((inStep_item h hdepth).separated h c rfl).bind fun _ d hd _ => ?_
  rw [← hd.depth] at hdepth
  refine ((expect h (by decide) _).advance_pos (fun _ _ => id) fun _ e he _ => ?_).mono
    fun _ _ _ hpos => Nat.lt_of_le_of_lt hd.pos hpos
  rw [← he.depth] at hdepth
  exact (inStep_template h hdepth e rfl).bind fun _ _ _ _ =>
    (expect h (by decide) _).bind fun _ _ _ _ => .pure trivial

/-- A rule that is given up before its first token passed a limit, or is skipped. -/
lemma rule : Follows i tokens (Cursor.rule (calls + 1)) (Parser.rule calls) c fun _ d =>
    c.fatal = none → startsItem (ahead tokens c.pos) = true → Progress c d := by
  refine .here h ((ruleBody h hdepth).attempt.bind fun o d hd ho => ?_)
  cases o with
  | some body =>
    have hpos := ho body rfl
    refine (spanFrom h (h.start_le_edge hpos hd.within)).bind fun _ e he _ => .pure fun _ _ => ?_
    exact Or.inl (Nat.lt_of_lt_of_le hpos he.pos)
  | none =>
    refine (skipStatement h).bind fun _ e he hskip => .pure fun hnone hstart => ?_
    cases hfatal : d.fatal with
    | some fault => exact Or.inr ⟨hnone,by simp [he.fatal fault hfatal]⟩
    | none =>
      -- nothing read, no limit passed: what begins an item is skipped
      refine Or.inl (Nat.lt_of_le_of_ne (hd.trans he).pos fun hsame => ?_)
      have hstay : d.pos = c.pos := by
        have := hd.pos
        have := he.pos
        omega
      have hread := hskip hfatal (by rw [hstay]; exact hstart)
      omega

lemma blockTurn {opened : Span} (hopened : opened.start ≤ edge tokens c.pos) :
    Follows i tokens (Cursor.blockTurn (calls + 1) opened) (Parser.blockTurn calls opened) c
      fun v d => goesOn v = true → Progress c d := by
  refine .shouldStop h (fun _ => ?_) fun hnone hahead => .peek h fun k hk => ?_
  · exact (reportUnclosed h _ _ hopened).bind fun _ _ _ _ => .pure nofun
  cases k with
  | braceClose => exact (next h hahead).bind fun _ _ _ _ => .pure nofun
  | _ =>
    exact orUnexpected h hahead fun hstart =>
      .map ((rule h hdepth).mono fun _ _ _ hrule _ => hrule hnone (hk ▸ hstart))

omit hdepth in
lemma blockName : Follows i tokens Cursor.blockName Parser.blockName c fun _ _ => True := by
  refine (eat? h (by decide)).bind fun o _ _ _ => ?_
  cases o with
  | some name => exact .pure trivial
  | none => exact (reportHere h _ _).bind fun _ _ _ _ => .pure trivial

lemma block (hahead : ahead tokens c.pos ≠ .endOfInput) :
    Follows i tokens (Cursor.block (calls + 1)) (Parser.block calls) c fun _ d =>
      c.pos < d.pos := by
  refine (next h hahead).advance_pos (fun _ _ => Took.pos) fun _ d₁ hd₁ _ => ?_
  refine (blockName h).bind fun name d₂ hd₂ _ => (eat? h (by decide)).bind fun o d₃ hd₃ ho => ?_
  cases o with
  | none => exact (reportHere h _ _).bind fun _ _ _ _ => .pure trivial
  | some opened =>
    refine (loop h fun e he => ?_).bind fun _ _ _ _ => .pure trivial
    rw [← (hd₁.trans (hd₂.trans (hd₃.trans he))).depth] at hdepth
    exact blockTurn h hdepth (Nat.le_trans (ho opened rfl).start (h.edge_mono he.pos))

lemma fileTurn : Follows i tokens (Cursor.fileTurn (calls + 1)) (Parser.fileTurn calls) c
    fun v d => goesOn v = true → Progress c d := by
  refine .shouldStop h (fun _ => .pure nofun) fun hnone hahead => .peek h fun k hk => ?_
  cases k with
  | kwLanguage => exact (block h hdepth hahead).bind fun _ _ _ hpos => .pure fun _ => Or.inl hpos
  | _ =>
    exact orUnexpected h hahead fun hstart =>
      (rule h hdepth).bind fun _ _ _ hrule => .pure fun _ => hrule hnone (hk ▸ hstart)

lemma file : Follows i tokens (Cursor.loop (Cursor.fileTurn (calls + 1)))
    (Parser.loop (Parser.fileTurn calls)) c fun _ _ => True := by
  refine loop h fun d hd => ?_
  rw [← hd.depth] at hdepth
  exact fileTurn h hdepth

end File

end Follows

/-! Sources. -/

lemma word_eq (offset : Nat) (hoffset : offset < 2 ^ 32) : word offset = offset :=
  Nat.mod_eq_of_lt hoffset

/-- The tokens of a source, by position. -/
lemma legible_of {source : String} (config : Config) (hsize : byteLength source.toList < 2 ^ 32) :
    Legible (.of source config) (significant source) := by
  have hgood := Parser.good_start source config.parseFuel
  have hlex : ∀ t ∈ significant source, t ∈ lex source := fun t ht => (List.mem_filter.mp ht).1
  have hword := word_eq (byteLength source.toList) hsize
  refine ⟨?_,?_,hgood.kinds,?_,?_,?_⟩
  · refine List.map_congr_left fun t ht => ?_
    obtain ⟨hstart,hstop⟩ := hgood.inOrder.le_of_mem t ht
    have hstop : t.span.stop ≤ byteLength source.toList := hstop
    rw [word_eq t.span.start (by omega), word_eq t.span.stop (by omega)]
  · rw [Input.of, hword]
    exact hgood.inOrder
  · exact fun t ht => Lexer.isSlice_lex source t (hlex t ht)
  · exact fun t ht => Lexer.slice?_of_hole (hlex t ht)
  · exact fun t ht => Lexer.slice?_of_literal (hlex t ht)

lemma view_start {source : String} (config : Config) (hsize : byteLength source.toList < 2 ^ 32) :
    view (.of source config) (significant source) (.start config) =
      Parser.State.start (lex source) (byteLength source.toList) config.parseFuel := by
  rw [view, Input.of, word_eq _ hsize]
  rfl

/-- What is concluded from agreeing states is the same. -/
lemma conclude_eq_ok {source : String} {config : Config} {entries : Option (List Entry)}
    (hfuel : d.fuel ≤ config.parseFuel)
    (hagree : Agrees i tokens (Parser.reading source config) entries d) :
    conclude config (entries.getD []) d = .ok (TreeRules.parse source config) := by
  rw [Parser.parse_eq, conclude]
  cases hrun : Parser.reading source config with
  | ok v t | reject t =>
    rw [hrun] at hagree
    obtain ⟨rfl,rfl,hnone⟩ := hagree
    simp only [hnone, if_neg (Nat.not_lt.mpr hfuel)]
    rfl
  | stop fault =>
    rw [hrun] at hagree
    rw [show d.fatal = some fault from hagree]

/-- A source of less than `2 ^ 32` bytes is read by position without a panic, whatever the limits
are: no token is taken where none is left, no span ends before its start, no slice reaches out of
its text or cuts a character, each turn of a loop reads a token or passes a limit or ends the loop,
and all loops and calls end. What is read is what is read from the list of tokens; that breaks off
for nothing but the two limits. -/
theorem parse_eq_ok (source : String) (config : Config)
    (hsize : byteLength source.toList < 2 ^ 32) :
    Cursor.parse source config = .ok (TreeRules.parse source config) ∧
      ∀ fault, TreeRules.parse source config = .error fault →
        fault = .fuelExhausted ∨ fault = .tooDeep := by
  constructor
  · have hdepth : (State.start config).depth + config.recursionLimit =
        (Input.of source config).recursionLimit := Nat.zero_add _
    have hrun := Follows.file (legible_of config hsize) hdepth (Nat.zero_le _)
    rw [view_start config hsize] at hrun
    rw [Cursor.parse]
    cases hfile : Cursor.loop (Cursor.fileTurn (config.recursionLimit + 1)) (.of source config)
        (.start config) with
    | ok entries d =>
      rw [hfile] at hrun
      exact conclude_eq_ok hrun.1.fuel (hrun.2.1 rfl)
    | reject d =>
      rw [hfile] at hrun
      exact conclude_eq_ok hrun.1.fuel (hrun.2 rfl)
    | panic fault =>
      rw [hfile] at hrun
      exact hrun.elim
  · intro fault hfault
    obtain ⟨entries,t,hrun⟩ | hrun | hrun := Parser.reading_cases source config
    · rw [Parser.parse_of_reading hrun] at hfault
      cases hfault
    all_goals
      rw [Parser.parse_of_stop hrun] at hfault
      cases hfault
      simp

/-- A block that is not closed, with a template that is not closed either and with characters of two
bytes, is read with its diagnostics, or up to the limit that is passed first. -/
theorem parse_eq_ok_unclosed :
    let source := "language L \x7b A<\"é\">, 'ß'..'ü'<#1> -> B(#1, [;"
    byteLength source.toList < 2 ^ 32 ∧
      (∃ p, Cursor.parse source ⟨99,9,4,"M"⟩ = .ok (.ok p) ∧ p.diagnostics ≠ []) ∧
      Cursor.parse source ⟨0,0,4,"M"⟩ = .ok (.error .fuelExhausted) ∧
      Cursor.parse source ⟨99,0,4,"M"⟩ = .ok (.error .tooDeep) := by
  intro source
  have hsize : byteLength source.toList < 2 ^ 32 := by decide +kernel
  have hread : (TreeRules.parse source ⟨99,9,4,"M"⟩).toOption.map (·.diagnostics.isEmpty) =
      some false := by decide +kernel
  have hstop : ∀ (limits : Config) (fault : Parser.Fault),
      (match TreeRules.parse source limits with
        | .ok _ => none
        | .error f => some f) = some fault →
      Cursor.parse source limits = .ok (.error fault) := by
    intro limits fault hfault
    rw [(parse_eq_ok source limits hsize).1]
    cases hp : TreeRules.parse source limits with
    | ok p =>
      rw [hp] at hfault
      cases hfault
    | error f =>
      rw [hp] at hfault
      cases hfault
      rfl
  refine ⟨hsize,?_,hstop _ _ (by decide +kernel),hstop _ _ (by decide +kernel)⟩
  rw [(parse_eq_ok source ⟨99,9,4,"M"⟩ hsize).1]
  cases hp : TreeRules.parse source ⟨99,9,4,"M"⟩ with
  | ok p =>
    rw [hp] at hread
    refine ⟨p,rfl,fun hnil => ?_⟩
    simp [Except.toOption, hnil] at hread
  | error fault =>
    rw [hp] at hread
    cases hread

end Cursor

end TreeRules
