import TreeRules.Proofs.Parser.Statements
import Mathlib.Data.List.Infix

/-! Where a language block ends. A statement that fails is skipped without regard to the braces that
it opened before, and up to a semicolon inside braces too, so it can leave braces open. A block with
balanced braces ends with the brace that closes it exactly if no statement does so. Otherwise a brace
inside it is taken for its end, and what stands behind that is read as if it stood outside. -/
namespace TreeRules

namespace Token

/-- No beginning closes more braces than it opens, and in the end none is open. -/
def Balanced (ts : List Token) : Prop :=
  (∀ us ∈ ts.inits, 0 ≤ openBraces us) ∧ openBraces ts = 0

instance (ts : List Token) : Decidable (Balanced ts) := inferInstanceAs (Decidable (_ ∧ _))

/-- If no part closes what it did not open, the whole closes all exactly if each part does. -/
lemma openBraces_flatten {parts : List (List Token)} (h : ∀ ts ∈ parts, 0 ≤ openBraces ts) :
    0 ≤ openBraces parts.flatten ∧
      (openBraces parts.flatten = 0 ↔ ∀ ts ∈ parts, openBraces ts = 0) := by
  induction parts with
  | nil => simp
  | cons ts parts ih =>
    rw [List.forall_mem_cons] at h ⊢
    obtain ⟨hle,hiff⟩ := ih h.2
    rw [← hiff, List.flatten_cons, openBraces_append]
    omega

/-- The first brace that closes more than was opened is the last one. -/
lemma Balanced.eq_nil_iff {ts us later : List Token} {c d : Token} (h : Balanced ts)
    (hc : c.kind = .braceClose) (hd : d.kind = .braceClose)
    (heq : ts ++ [c] = us ++ d :: later) : later = [] ↔ openBraces us = 0 := by
  have htotal : openBraces us + (-1 + openBraces later) = -1 := by
    have hsum := congrArg openBraces heq
    simpa [h.2, hc, hd, Kind.braceWeight] using hsum.symm
  constructor
  · rintro rfl
    rw [openBraces_nil] at htotal
    omega
  · intro hzero
    by_contra hne
    -- the brace stands inside, so what ends with it is a beginning
    have hprefix : us ++ [d] <+: ts := by
      obtain ⟨later,e,rfl⟩ := (List.eq_nil_or_concat' later).resolve_left hne
      have hinner : ts ++ [c] = us ++ [d] ++ later ++ [e] := by simpa using heq
      exact ⟨later,(List.append_inj' hinner rfl).1.symm⟩
    have hnonneg := h.1 _ ((List.mem_inits _ _).mpr hprefix)
    simp [hzero, hd, Kind.braceWeight] at hnonneg

end Token

namespace Parser

open Grammar Token
open Token (Kind)

variable {α : Type} {s t : State} {depth : Nat} {opened : Span}

/-! Portions. -/

/-- The turns of a loop but the last: the tokens that each takes, and what it yields. -/
def portions (step : Parser (Turn α)) : (budget : Nat) → State → List (List Token × Option α)
  | 0, _ => []
  | budget + 1, s =>
    match step s with
    | .ok .skip t =>
      (s.rest.take (s.rest.length - t.rest.length),none) :: portions step budget t
    | .ok (.item a) t =>
      (s.rest.take (s.rest.length - t.rest.length),some a) :: portions step budget t
    | .ok .done _ | .reject _ | .stop _ => []

/-- The portions of a loop are the tokens up to its last turn, and yield what its turns do. -/
lemma portions_of_course {step : Parser (Turn α)} (hstep : Shortens step) {os : List (Option α)}
    (h : Course step s os t) {budget : Nat} (hb : os.length < budget) :
    ∃ u, step u = .ok .done t ∧
      s.rest = ((portions step budget s).map Prod.fst).flatten ++ u.rest ∧
      (portions step budget s).map Prod.snd = os ∧
      ∀ x ∈ portions step budget s, ∃ v w, step v = .ok (.ofOption x.2) w ∧
        v.rest = x.1 ++ w.rest := by
  induction h generalizing budget with
  | @done s t h =>
    obtain ⟨n,rfl⟩ := Nat.exists_eq_succ_of_ne_zero (Nat.ne_of_gt hb)
    have hnil : portions step (n + 1) s = [] := by rw [portions, h]
    rw [hnil]
    exact ⟨s,h,rfl,rfl,by simp⟩
  | @turn s t u o os h _ ih =>
    obtain ⟨n,rfl⟩ := Nat.exists_eq_succ_of_ne_zero (Nat.ne_of_gt (Nat.zero_lt_of_lt hb))
    obtain ⟨v,hv,hrest,hos,hparts⟩ := ih (Nat.lt_of_succ_lt_succ hb)
    obtain ⟨ts,hts⟩ := (hstep.of_ok h).1
    have hcons : portions step (n + 1) s = (ts,o) :: portions step n t := by
      have htaken : s.rest.take (s.rest.length - t.rest.length) = ts := by simp [hts]
      cases o <;> rw [portions, h] <;> dsimp only [Turn.ofOption] <;> rw [htaken]
    rw [hcons]
    refine ⟨v,hv,?_,by rw [List.map_cons, hos],List.forall_mem_cons.mpr ⟨⟨s,t,h,hts⟩,hparts⟩⟩
    rw [hts, hrest, List.map_cons, List.flatten_cons, List.append_assoc]

/-- What one turn of a block takes closes no brace that it did not open. If it is a rule, all are
closed. -/
lemma openBraces_blockTurn {o : Option Rule} (h : blockTurn depth opened s = .ok (.ofOption o) t)
    {ts : List Token} (hts : s.rest = ts ++ t.rest) :
    0 ≤ openBraces ts ∧ (o.isSome = true → openBraces ts = 0) := by
  have heq : ∀ {us : List Token}, s.rest = us ++ t.rest → ts = us :=
    fun hus => List.append_cancel_right (hts.symm.trans hus)
  obtain ⟨hdone,-⟩ | ⟨hdone,-⟩ | ⟨o',hturn,-,hrule⟩ | ⟨hskip,x,hrest,hclose,hitem⟩ :=
    blockTurn_cases h
  · exact absurd hdone (ofOption_ne_done o)
  · exact absurd hdone (ofOption_ne_done o)
  · obtain rfl := ofOption_inj hturn
    obtain ⟨us,c,r,rfl,hm,-,hus,hc,-⟩ | ⟨us,rfl,hm,hus⟩ := rule_cases hrule
    · have hzero : openBraces (us ++ [c]) = 0 := by simp [hus, hc, Kind.braceWeight]
      rw [heq hm.rest, hzero]
      exact ⟨Int.le_refl 0,fun _ => rfl⟩
    · rw [heq hm.rest]
      refine ⟨hus,fun hsome => ?_⟩
      cases hsome
  · -- a brace that opens begins an item
    have hweight : x.kind.braceWeight = 0 := by
      cases hk : x.kind with
      | braceOpen =>
        rw [hk] at hitem
        cases hitem
      | braceClose => exact absurd hk hclose
      | _ => rfl
    obtain rfl : ts = [x] := heq hrest
    simp [hweight]

/-! Blocks. -/

/-- The statements of the block that `s` stands in, each with the rule that it is read as. -/
def blockStatements (depth : Nat) (opened : Span) (s : State) : List (List Token × Option Rule) :=
  portions (blockTurn depth opened) (s.rest.length + 1) s

/-- The statements of a balanced block reach up to a closing brace. It is the last one exactly if no
statement that failed left a brace open. -/
lemma blockStatements_of_course {inner : List Token} {close : Token} {os : List (Option Rule)}
    (h : Course (blockTurn depth opened) s os t) (hlength : os.length ≤ s.rest.length)
    (hrest : s.rest = inner ++ [close]) (hbalanced : Balanced inner)
    (hclose : close.kind = .braceClose) :
    (blockStatements depth opened s).map Prod.snd = os ∧
      (∃ c : Token, c.kind = .braceClose ∧
        inner ++ [close] = ((blockStatements depth opened s).map Prod.fst).flatten ++ c :: t.rest) ∧
      (t.rest = [] ↔ ∀ x ∈ blockStatements depth opened s, x.2 = none → openBraces x.1 = 0) := by
  obtain ⟨u,hdone,hflat,hos,hturns⟩ := portions_of_course (shortens_blockTurn depth opened) h
    (Nat.lt_succ_of_le hlength)
  change s.rest = ((blockStatements depth opened s).map Prod.fst).flatten ++ u.rest at hflat
  change ∀ x ∈ blockStatements depth opened s, _ at hturns
  have hopen : ∀ x ∈ blockStatements depth opened s,
      0 ≤ openBraces x.1 ∧ (x.2.isSome = true → openBraces x.1 = 0) := by
    intro x hx
    obtain ⟨v,w,hturn,hv⟩ := hturns x hx
    exact openBraces_blockTurn hturn hv
  have hparts : ∀ ts ∈ (blockStatements depth opened s).map Prod.fst, 0 ≤ openBraces ts :=
    List.forall_mem_map.mpr fun x hx => (hopen x hx).1
  obtain ⟨hnonneg,hzero⟩ := openBraces_flatten hparts
  obtain ⟨-,hnil⟩ | ⟨-,c,hc,hkind⟩ | ⟨o,hturn,-⟩ | ⟨hturn,-⟩ := blockTurn_cases hdone
  · -- at the end of the source the block would have closed more than it opened
    have hsum := congrArg openBraces (hrest.symm.trans hflat)
    simp only [hnil, openBraces_append, openBraces_cons, openBraces_nil, hbalanced.2, hclose,
      Kind.braceWeight] at hsum
    omega
  · rw [hrest, hc] at hflat
    refine ⟨hos,⟨c,hkind,hflat⟩,?_⟩
    rw [hbalanced.eq_nil_iff hclose hkind hflat, hzero, List.forall_mem_map]
    refine forall₂_congr fun x hx => ⟨fun hz _ => hz,fun hz => ?_⟩
    cases ho : x.2 with
    | none => exact hz ho
    | some r => exact (hopen x hx).2 (by simp [ho])
  · exact absurd hturn.symm (ofOption_ne_done o)
  · cases hturn

/-- The turns of a block that has its name and its brace. -/
lemma course_of_block {kw name opened : Token} {rest : List Token} {o : Option Block}
    (hrest : s.rest = kw :: name :: opened :: rest) (hname : name.kind = .id)
    (hopened : opened.kind = .braceOpen) (h : block depth s = .ok o t) :
    ∃ os, os.length ≤ rest.length ∧
      Course (blockTurn depth opened.span) (s.past [kw,name,opened] rest) os t ∧
      o = some ⟨name.text,some name.span,os.reduceOption⟩ := by
  obtain ⟨kw',name',opened',rest',os,hrest',hlength,hcourse,rfl⟩ | ⟨-,hnone⟩ := block_cases h
  · rw [hrest] at hrest'
    injection hrest' with hkw hrest'
    injection hrest' with hname' hrest'
    injection hrest' with hopened' hrest'
    subst hkw hname' hopened' hrest'
    exact ⟨os,hlength,hcourse,rfl⟩
  · exact absurd hopened (hnone _ _ _ _ hrest hname)

/-! Files. -/

/-- The block of the rules outside the language blocks, unless there are none. -/
def defaultBlocks (language : String) : List Rule → List Block
  | [] => []
  | r :: rs => [⟨language,none,r :: rs⟩]

lemma group_loose (language : String) (rs : List Rule) :
    group language (rs.map Entry.loose) = defaultBlocks language rs := by
  induction rs with
  | nil => rfl
  | cons r rs ih =>
    rw [List.map_cons, group, ih]
    cases rs <;> rfl

/-- Where a block begins, the first turn reads it. -/
lemma block_of_course {os : List (Option Entry)} (h : Course (fileTurn depth) s os t)
    (hhead : headKind s.rest = .kwLanguage) :
    ∃ o os' u, os = o.map Entry.block :: os' ∧ block depth s = .ok o u ∧
      Course (fileTurn depth) u os' t := by
  cases h with
  | done h =>
    rw [(eq_of_fileTurn_done h).1] at hhead
    cases hhead
  | @turn _ u _ o os h hrest =>
    obtain ⟨hdone,-⟩ | ⟨o',hturn,-,hblock⟩ | ⟨o',-,hitem,-⟩ | ⟨-,x,hx,hk,-⟩ := fileTurn_cases h
    · exact absurd hdone (ofOption_ne_done o)
    · exact ⟨o',os,u,by rw [ofOption_inj hturn],hblock,hrest⟩
    · rw [hhead] at hitem
      cases hitem
    · rw [hx] at hhead
      exact absurd hhead hk

/-- Without the word that begins a block all rules stand outside the blocks. -/
lemma loose_of_course {os : List (Option Entry)} (h : Course (fileTurn depth) s os t)
    (hk : ∀ c ∈ s.rest, c.kind ≠ .kwLanguage) :
    ∃ rs : List Rule, os.reduceOption = rs.map Entry.loose := by
  induction h with
  | done => exact ⟨[],rfl⟩
  | @turn s t u o os h _ ih =>
    obtain ⟨ts,hts⟩ := ((shortens_fileTurn depth).of_ok h).1
    obtain ⟨rs,hrs⟩ := ih fun c hc => hk c (by simp [hts, hc])
    obtain ⟨hdone,-⟩ | ⟨o',-,hhead,-⟩ | ⟨o',hturn,-⟩ | ⟨hskip,-⟩ := fileTurn_cases h
    · exact absurd hdone (ofOption_ne_done o)
    · obtain ⟨c,cs,hr,hc⟩ := exists_cons_of_headKind hhead (by decide)
      exact absurd hc (hk c (by simp [hr]))
    · obtain rfl := ofOption_inj hturn
      cases o' with
      | none => exact ⟨rs,by rw [Option.map_none, List.reduceOption_cons_of_none, hrs]⟩
      | some r =>
        refine ⟨r :: rs,?_⟩
        rw [Option.map_some, List.reduceOption_cons_of_some, hrs, List.map_cons]
    · obtain rfl : o = none := ofOption_inj hskip
      exact ⟨rs,by rw [List.reduceOption_cons_of_none, hrs]⟩

/-- Limits apart, a source that is one language block with balanced braces is read as follows. The
block takes statements up to a closing brace. This is the last one exactly if no statement that
failed left a brace open, and then all rules are in the block. Otherwise the rules behind the brace
make a block of the default language. -/
theorem block_ends_iff (source : String) (config : Config) {kw name opened close : Token}
    {inner : List Token}
    (hsource : significant source = kw :: name :: opened :: (inner ++ [close]))
    (hkw : kw.kind = .kwLanguage) (hname : name.kind = .id) (hopened : opened.kind = .braceOpen)
    (hclose : close.kind = .braceClose) (hbalanced : Balanced inner)
    (hlanguage : ∀ t ∈ inner, t.kind ≠ .kwLanguage)
    (hfuel : parse source config ≠ .error .fuelExhausted)
    (hdeep : parse source config ≠ .error .tooDeep) :
    ∃ p sts later loose, parse source config = .ok p ∧
      sts = blockStatements config.recursionLimit opened.span
        ((State.start (lex source) (byteLength source.toList) config.parseFuel).past
          [kw,name,opened] (inner ++ [close])) ∧
      p.file.blocks = ⟨name.text,some name.span,sts.filterMap Prod.snd⟩ ::
        defaultBlocks config.defaultLanguage loose ∧
      (∃ c : Token, c.kind = .braceClose ∧
        inner ++ [close] = (sts.map Prod.fst).flatten ++ c :: later) ∧
      (later = [] ↔ ∀ x ∈ sts, x.2 = none → openBraces x.1 = 0) ∧
      (later = [] → loose = []) := by
  obtain ⟨p,hp⟩ := exists_parse hfuel hdeep
  obtain ⟨entries,t,hrun,rfl⟩ := exists_reading hp
  obtain ⟨os,hcourse,-,rfl⟩ := exists_course hrun
  have hrest : (State.start (lex source) (byteLength source.toList) config.parseFuel).rest =
      kw :: name :: opened :: (inner ++ [close]) := hsource
  obtain ⟨o,os,u,rfl,hblock,hbehind⟩ := block_of_course hcourse (by rw [hrest]; exact hkw)
  obtain ⟨bs,hlength,hturns,rfl⟩ := course_of_block hrest hname hopened hblock
  obtain ⟨rfl,⟨c,hc,hflat⟩,hiff⟩ :=
    blockStatements_of_course hturns hlength rfl hbalanced hclose
  have hplain : ∀ d ∈ u.rest, d.kind ≠ .kwLanguage := by
    intro d hd
    have hmem : d ∈ inner ++ [close] := by
      rw [hflat]
      simp [hd]
    rcases List.mem_append.mp hmem with hmem | hmem
    · exact hlanguage d hmem
    · rw [List.mem_singleton.mp hmem, hclose]
      decide
  obtain ⟨loose,hloose⟩ := loose_of_course hbehind hplain
  refine ⟨_,_,u.rest,loose,hp,rfl,?_,⟨c,hc,hflat⟩,hiff,fun hnil => ?_⟩
  · change group _ _ = _
    rw [Option.map_some, List.reduceOption_cons_of_some, hloose, group, group_loose,
      List.reduceOption, List.filterMap_map]
    rfl
  · obtain ⟨rfl,-⟩ := course_of_nil hnil hbehind
    exact List.map_eq_nil_iff.mp hloose.symm

/-- The only statement of the block fails behind a brace that it opened, and is skipped up to the
brace that closes this one. There the block ends, and the rule behind it stands outside. -/
theorem block_ends_inside :
    ∃ (p : Parse) (st later : List Token),
      parse "language js \x7b \x7bA B\x7d -> X; D -> E; \x7d" ⟨50,5,4,"M"⟩ = .ok p ∧
      p.file.blocks.map (fun b => (b.name,b.rules.map Rule.span)) =
        [("js",[]),("M",[⟨26,33⟩])] ∧
      st.map Token.text = ["\x7b","A","B"] ∧ openBraces st = 1 ∧
      later.map Token.text = ["->","X",";","D","->","E",";","\x7d"] := by
  have hread : (parse "language js \x7b \x7bA B\x7d -> X; D -> E; \x7d" ⟨50,5,4,"M"⟩).toOption.map
      (fun p => p.file.blocks.map fun b => (b.name,b.rules.map Rule.span)) =
        some [("js",[]),("M",[⟨26,33⟩])] := by
    decide +kernel
  have hsource : significant "language js \x7b \x7bA B\x7d -> X; D -> E; \x7d" =
      ⟨.kwLanguage,⟨0,8⟩,"language"⟩ :: ⟨.id,⟨9,11⟩,"js"⟩ :: ⟨.braceOpen,⟨12,13⟩,"\x7b"⟩ ::
        (((significant "language js \x7b \x7bA B\x7d -> X; D -> E; \x7d").drop 3).dropLast ++
          [⟨.braceClose,⟨34,35⟩,"\x7d"⟩]) := by
    decide +kernel
  obtain ⟨p,sts,later,loose,hp,hsts,-,⟨c,-,hflat⟩,-,-⟩ := block_ends_iff _ _ hsource rfl rfl rfl
    rfl (by decide +kernel) (by decide +kernel) (ne_error_of_map_toOption hread _)
    (ne_error_of_map_toOption hread _)
  have hopen : sts.map (fun x => (x.1.map Token.text,openBraces x.1)) =
      [(["\x7b","A","B"],1)] := by
    rw [hsts]
    decide +kernel
  have htexts :
      (((significant "language js \x7b \x7bA B\x7d -> X; D -> E; \x7d").drop 3).dropLast ++
        [(⟨.braceClose,⟨34,35⟩,"\x7d"⟩ : Token)]).map Token.text =
        ["\x7b","A","B","\x7d","->","X",";","D","->","E",";","\x7d"] := by
    decide +kernel
  obtain ⟨⟨st,o⟩,rfl,hst⟩ := List.map_eq_singleton_iff.mp hopen
  simp only [Prod.mk.injEq] at hst
  rw [hflat] at htexts
  rw [hp] at hread
  simp only [Except.toOption, Option.map_some, Option.some.injEq] at hread
  refine ⟨p,st,later,hp,hread,hst.1,hst.2,?_⟩
  simp only [List.map_cons, List.map_nil, List.flatten_singleton, List.map_append, hst.1,
    List.cons_append, List.nil_append, List.cons.injEq] at htexts
  exact htexts.2.2.2.2

end Parser

end TreeRules
