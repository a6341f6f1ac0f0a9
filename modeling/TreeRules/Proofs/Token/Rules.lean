import TreeRules.Proofs.Token.Escape
import TreeRules.Proofs.Token.Pieces
import Mathlib.Computability.Language

/-! The rules of tokens: for each kind a regular language of texts. Of a text the lexer takes the
longest beginning that some rule matches, by the rule that matches it, keywords before identifiers;
it takes garbage only where no rule matches any beginning. -/

/-- A set of texts. The languages that rules are compiled for have their name in `TreeRules`. -/
abbrev TextLanguage : Type := Language Char

namespace TreeRules

open scoped Computability

namespace Token

/-- This text and no other. -/
def literal (text : String) : TextLanguage := {text.toList}

/-- One character of a class. -/
def oneOf (p : Char → Prop) : TextLanguage := {word | ∃ c, p c ∧ word = [c]}

/-- One or more characters of a class. -/
def someOf (p : Char → Prop) : TextLanguage := oneOf p * (oneOf p)∗

/-- A character between quotes: any but the quote and the backslash, or an escape, which may not
hold a line end. -/
def content (quote : Char) : TextLanguage :=
  oneOf (fun c => c ≠ quote ∧ c ≠ '\\') + literal "\\" * oneOf (· ≠ '\n')

/-- The texts that a token of a kind may have. No rule makes garbage or the end. -/
def Kind.rule : Kind → TextLanguage
  | parenOpen => literal "("
  | parenClose => literal ")"
  | bracketOpen => literal "["
  | bracketClose => literal "]"
  | braceOpen => literal "\x7b"
  | braceClose => literal "\x7d"
  | angleOpen => literal "<"
  | angleClose => literal ">"
  | comma => literal ","
  | semicolon => literal ";"
  | arrow => literal "->"
  | ellipsis => literal "..."
  | dotDot => literal ".."
  | negation => literal "!"
  | pipe => literal "|"
  | ampersand => literal "&"
  | hole => literal "#" * someOf fun c => '0' ≤ c ∧ c ≤ '9'
  | kwLanguage => literal "language"
  | kwNull => literal "null"
  | id =>
    oneOf (fun c => 'a' ≤ c ∧ c ≤ 'z' ∨ 'A' ≤ c ∧ c ≤ 'Z' ∨ c = '_') *
      (oneOf fun c => 'a' ≤ c ∧ c ≤ 'z' ∨ 'A' ≤ c ∧ c ≤ 'Z' ∨ '0' ≤ c ∧ c ≤ '9' ∨ c = '_')∗
  | stringLiteral => literal "\"" * (content '"')∗ * literal "\""
  | charLiteral => literal "'" * content '\'' * literal "'"
  | whitespace => someOf fun c => c = ' ' ∨ c = '\t' ∨ c = '\r' ∨ c = '\n'
  | lineComment => literal "//" * (oneOf (· ≠ '\n'))∗
  | garbage | endOfInput => 0

/-- A token at the front of a text, of the kind that the rules give it: no rule matches a longer
beginning, and no other rule matches this one, except that keywords are also identifiers. -/
structure Munches (kind : Kind) (text chars : List Char) : Prop where
  isPrefix : text <+: chars
  mem : text ∈ kind.rule
  longest : ∀ (other : Kind) word, word <+: chars → word ∈ other.rule → word.length ≤ text.length
  first : ∀ other : Kind, text ∈ other.rule →
    other = kind ∨ other = .id ∧ kind ∈ [.kwLanguage,.kwNull]

/-! Membership in the rules. -/

variable {p : Char → Prop} {l : TextLanguage} {text : String} {word : List Char}

@[simp] lemma mem_literal : word ∈ literal text ↔ word = text.toList := Iff.rfl

@[simp] lemma mem_oneOf : word ∈ oneOf p ↔ ∃ c, p c ∧ word = [c] := Iff.rfl

lemma mem_literal_mul : word ∈ literal text * l ↔ ∃ rest ∈ l, word = text.toList ++ rest := by
  rw [Language.mem_mul]
  constructor
  · rintro ⟨_,rfl,rest,hrest,rfl⟩
    exact ⟨rest,hrest,rfl⟩
  · rintro ⟨rest,hrest,rfl⟩
    exact ⟨_,rfl,rest,hrest,rfl⟩

/-- A text between two delimiters. -/
lemma mem_between : word ∈ literal text * l * literal text ↔
    ∃ body ∈ l, word = text.toList ++ (body ++ text.toList) := by
  rw [mul_assoc, mem_literal_mul]
  constructor
  · rintro ⟨_,⟨body,hbody,_,rfl,rfl⟩,rfl⟩
    exact ⟨body,hbody,rfl⟩
  · rintro ⟨body,hbody,rfl⟩
    exact ⟨_,Language.append_mem_mul hbody (mem_literal.mpr rfl),rfl⟩

lemma mem_oneOf_mul : word ∈ oneOf p * l ↔ ∃ c rest, p c ∧ rest ∈ l ∧ word = c :: rest := by
  rw [Language.mem_mul]
  constructor
  · rintro ⟨_,⟨c,hc,rfl⟩,rest,hrest,rfl⟩
    exact ⟨c,rest,hc,hrest,rfl⟩
  · rintro ⟨c,rest,hc,hrest,rfl⟩
    exact ⟨[c],⟨c,hc,rfl⟩,rest,hrest,rfl⟩

/-- Any number of characters of a class. -/
lemma mem_oneOf_kstar : word ∈ (oneOf p)∗ ↔ ∀ c ∈ word, p c := by
  rw [Language.mem_kstar]
  constructor
  · rintro ⟨words,rfl,hwords⟩ c hc
    obtain ⟨one,hone,hc⟩ := List.mem_flatten.mp hc
    obtain ⟨d,hd,rfl⟩ := hwords one hone
    rwa [List.mem_singleton.mp hc]
  · intro h
    refine ⟨word.map ([·]),?_,?_⟩
    · rw [List.flatten_eq_flatMap, List.flatMap_map]
      simp
    · intro one hone
      obtain ⟨c,hc,rfl⟩ := List.mem_map.mp hone
      exact ⟨c,h c hc,rfl⟩

lemma mem_someOf : word ∈ someOf p ↔ word ≠ [] ∧ ∀ c ∈ word, p c := by
  rw [someOf, mem_oneOf_mul]
  constructor
  · rintro ⟨c,rest,hc,hrest,rfl⟩
    exact ⟨List.cons_ne_nil _ _,List.forall_mem_cons.mpr ⟨hc,mem_oneOf_kstar.mp hrest⟩⟩
  · rintro ⟨hne,hall⟩
    obtain ⟨c,rest,rfl⟩ := List.exists_cons_of_ne_nil hne
    rw [List.forall_mem_cons] at hall
    exact ⟨c,rest,hall.1,mem_oneOf_kstar.mpr hall.2,rfl⟩

lemma mem_content {quote : Char} :
    word ∈ content quote ↔
      (∃ c, word = [c] ∧ c ≠ quote ∧ c ≠ '\\') ∨ ∃ c, word = ['\\',c] ∧ c ≠ '\n' := by
  rw [content, Language.mem_add, mem_literal_mul]
  apply or_congr
  · constructor
    · rintro ⟨c,hc,rfl⟩
      exact ⟨c,rfl,hc⟩
    · rintro ⟨c,rfl,hc⟩
      exact ⟨c,hc,rfl⟩
  · constructor
    · rintro ⟨_,⟨c,hc,rfl⟩,rfl⟩
      exact ⟨c,rfl,hc⟩
    · rintro ⟨c,rfl,hc⟩
      exact ⟨[c],⟨c,hc,rfl⟩,rfl⟩

end Token

namespace Lexer

open Token

variable {c : Char} {cs run rest : List Char} {kind : Kind}

/-! The classes of characters. -/

lemma isUpper_iff : c.isUpper = true ↔ 'A' ≤ c ∧ c ≤ 'Z' := decide_eq_true_iff

lemma isLower_iff : c.isLower = true ↔ 'a' ≤ c ∧ c ≤ 'z' :=
  Bool.and_eq_true_iff.trans (and_congr decide_eq_true_iff decide_eq_true_iff)

lemma isAlpha_iff : c.isAlpha = true ↔ 'a' ≤ c ∧ c ≤ 'z' ∨ 'A' ≤ c ∧ c ≤ 'Z' :=
  Bool.or_eq_true_iff.trans ((or_congr isUpper_iff isLower_iff).trans or_comm)

lemma isDigit_iff : c.isDigit = true ↔ '0' ≤ c ∧ c ≤ '9' :=
  Bool.and_eq_true_iff.trans (and_congr decide_eq_true_iff decide_eq_true_iff)

lemma isIdStart_iff :
    isIdStart c = true ↔ 'a' ≤ c ∧ c ≤ 'z' ∨ 'A' ≤ c ∧ c ≤ 'Z' ∨ c = '_' := by
  rw [isIdStart, Bool.or_eq_true, isAlpha_iff, beq_iff_eq, or_assoc]

lemma isIdChar_iff :
    isIdChar c = true ↔
      'a' ≤ c ∧ c ≤ 'z' ∨ 'A' ≤ c ∧ c ≤ 'Z' ∨ '0' ≤ c ∧ c ≤ '9' ∨ c = '_' := by
  rw [isIdChar, Bool.or_eq_true, Char.isAlphanum, Bool.or_eq_true, isAlpha_iff, isDigit_iff,
    beq_iff_eq, or_assoc, or_assoc]

lemma isBlank_iff : isBlank c = true ↔ c = ' ' ∨ c = '\t' ∨ c = '\r' ∨ c = '\n' := by
  simp [isBlank, or_assoc]

lemma mem_rule_id {word : List Char} :
    word ∈ Kind.id.rule ↔
      ∃ c cs, word = c :: cs ∧ isIdStart c = true ∧ ∀ d ∈ cs, isIdChar d = true := by
  simp only [Kind.rule, mem_oneOf_mul, mem_oneOf_kstar, isIdStart_iff, isIdChar_iff]
  grind

lemma mem_rule_hole {word : List Char} :
    word ∈ Kind.hole.rule ↔
      ∃ digits, word = '#' :: digits ∧ digits ≠ [] ∧ ∀ d ∈ digits, d.isDigit = true := by
  simp only [Kind.rule, mem_literal_mul, mem_someOf, isDigit_iff]
  constructor
  · rintro ⟨digits,hdigits,rfl⟩
    exact ⟨digits,rfl,hdigits⟩
  · rintro ⟨digits,rfl,hdigits⟩
    exact ⟨digits,hdigits,rfl⟩

lemma mem_rule_whitespace {word : List Char} :
    word ∈ Kind.whitespace.rule ↔ word ≠ [] ∧ ∀ d ∈ word, isBlank d = true := by
  simp only [Kind.rule, mem_someOf, isBlank_iff]

lemma mem_rule_lineComment {word : List Char} :
    word ∈ Kind.lineComment.rule ↔
      ∃ cs, word = '/' :: '/' :: cs ∧ ∀ d ∈ cs, (d != '\n') = true := by
  simp only [Kind.rule, mem_literal_mul, mem_oneOf_kstar, bne_iff_ne]
  constructor
  · rintro ⟨cs,hcs,rfl⟩
    exact ⟨cs,rfl,hcs⟩
  · rintro ⟨cs,rfl,hcs⟩
    exact ⟨cs,hcs,rfl⟩

lemma mem_rule_stringLiteral {word : List Char} :
    word ∈ Kind.stringLiteral.rule ↔
      ∃ body ∈ (content '"')∗, word = '"' :: (body ++ ['"']) := mem_between

lemma mem_rule_charLiteral {word : List Char} :
    word ∈ Kind.charLiteral.rule ↔
      ∃ body ∈ content '\'', word = '\'' :: (body ++ ['\'']) := mem_between

/-! What is scanned as a token matches the rule of its kind. -/

lemma mem_rule_of_punctuation? (h : punctuation? c = some kind) : [c] ∈ kind.rule := by
  revert h
  fun_cases punctuation? c with
  | case14 => simp
  | _ =>
    rintro ⟨rfl⟩
    rfl

lemma mem_rule_wordKind (hc : isIdStart c = true) (hcs : ∀ d ∈ cs, isIdChar d = true) :
    c :: cs ∈ (wordKind (c :: cs)).rule := by
  rw [wordKind]
  split_ifs with hl hn
  · exact hl
  · exact hn
  · exact mem_rule_id.mpr ⟨c,cs,rfl,hc,hcs⟩

lemma mem_of_scanString (seen : Nat) (cs : List Char) :
    (scanString seen cs).kind ≠ .garbage → (scanString seen cs).kind = .stringLiteral ∧
      ∃ n, (scanString seen cs).length = seen + n ∧ ∃ body ∈ (content '"')∗,
        cs.take n = body ++ ['"'] := by
  fun_induction scanString seen cs with
  | case2 seen cs => exact fun _ => ⟨rfl,1,rfl,[],Language.nil_mem_kstar _,rfl⟩
  | case5 seen c cs hc ih =>
    intro hk
    obtain ⟨hkind,n,hn,body,hbody,htake⟩ := ih hk
    have hescape : ['\\',c] ∈ content '"' := mem_content.mpr (Or.inr ⟨c,rfl,hc⟩)
    refine ⟨hkind,n + 2,by omega,'\\' :: c :: body,?_,by simp [htake]⟩
    exact (mul_kstar_le_kstar : _ ≤ (content '"')∗) (Language.append_mem_mul hescape hbody)
  | case6 seen c cs hquote hlone _ hslash ih =>
    intro hk
    obtain ⟨hkind,n,hn,body,hbody,htake⟩ := ih hk
    have hc : c ≠ '\\' := by
      rintro rfl
      cases cs with
      | nil => exact hlone rfl rfl
      | cons d ds => exact hslash d ds rfl rfl
    have hplain : [c] ∈ content '"' := mem_content.mpr (Or.inl ⟨c,rfl,hquote,hc⟩)
    refine ⟨hkind,n + 1,by omega,c :: body,?_,by simp [htake]⟩
    exact (mul_kstar_le_kstar : _ ≤ (content '"')∗) (Language.append_mem_mul hplain hbody)
  | _ => exact fun hk => absurd rfl hk

lemma mem_of_scanChar (cs : List Char) :
    (scanChar cs).kind ≠ .garbage → (scanChar cs).kind = .charLiteral ∧
      ('\'' :: cs).take (scanChar cs).length ∈ Kind.charLiteral.rule := by
  fun_cases scanChar cs with
  | case2 c cs hc =>
    exact fun _ => ⟨rfl,mem_rule_charLiteral.mpr
      ⟨['\\',c],mem_content.mpr (Or.inr ⟨c,rfl,hc⟩),rfl⟩⟩
  | case6 c cs _ hc hquote =>
    exact fun _ => ⟨rfl,mem_rule_charLiteral.mpr
      ⟨[c],mem_content.mpr (Or.inl ⟨c,rfl,hquote,hc⟩),rfl⟩⟩
  | _ => exact fun hk => absurd rfl hk

lemma take_length_takeWhile (p : Char → Bool) (cs : List Char) :
    cs.take (cs.takeWhile p).length = cs.takeWhile p :=
  List.prefix_iff_eq_take.mp (List.takeWhile_prefix p) |>.symm

lemma all_takeWhile (p : Char → Bool) (cs : List Char) : ∀ d ∈ cs.takeWhile p, p d = true :=
  List.all_eq_true.mp List.all_takeWhile

/-- A token has a text of its kind. -/
theorem mem_rule_scan (c : Char) (cs : List Char) :
    (scan c cs).kind ≠ .garbage → (c :: cs).take (scan c cs).length ∈ (scan c cs).kind.rule := by
  fun_cases scan c cs with
  | case1 c cs kind hk => exact fun _ => mem_rule_of_punctuation? hk
  | case2 c cs hnone hstart word =>
    intro _
    have htake : (c :: cs).take word.length = word := by
      simp [word, take_length_takeWhile]
    rw [htake]
    exact mem_rule_wordKind hstart (all_takeWhile isIdChar cs)
  | case3 c cs hnone hstart hblank =>
    intro _
    rw [Nat.add_comm 1, List.take_succ_cons, take_length_takeWhile]
    refine mem_rule_whitespace.mpr ⟨List.cons_ne_nil _ _,?_⟩
    exact List.forall_mem_cons.mpr ⟨hblank,all_takeWhile isBlank cs⟩
  | case4 | case5 | case6 => exact fun _ => rfl
  | case7 cs =>
    intro _
    rw [Nat.add_comm 2, List.take_succ_cons, List.take_succ_cons, take_length_takeWhile]
    exact mem_rule_lineComment.mpr ⟨_,rfl,all_takeWhile (· != '\n') cs⟩
  | case9 cs digits hdigits =>
    intro _
    rw [Nat.add_comm 1, List.take_succ_cons, take_length_takeWhile]
    exact mem_rule_hole.mpr ⟨_,rfl,by simpa [digits] using hdigits,all_takeWhile Char.isDigit cs⟩
  | case10 cs =>
    intro hk
    obtain ⟨hkind,n,hn,body,hbody,htake⟩ := mem_of_scanString 1 cs hk
    rw [hkind, hn, Nat.add_comm 1, List.take_succ_cons, htake]
    exact mem_rule_stringLiteral.mpr ⟨body,hbody,rfl⟩
  | case11 cs =>
    intro hk
    obtain ⟨hkind,hmem⟩ := mem_of_scanChar cs hk
    rw [hkind]
    exact hmem
  | _ => exact fun hk => absurd rfl hk

/-! Whatever rule matches a beginning, the scan goes as far, or further. -/

/-- A scan that takes at least `length` characters; if no more, then as `kind`, or as the keyword
that these characters are. -/
structure Outdoes (kind : Kind) (length : Nat) (s : Scan) : Prop where
  kind_ne : s.kind ≠ .garbage
  le : length ≤ s.length
  first : length = s.length → kind = s.kind ∨ kind = .id ∧ s.kind ∈ [.kwLanguage,.kwNull]

lemma Outdoes.of_eq {length : Nat} {s : Scan} (h : s = ⟨kind,length⟩) (hk : kind ≠ .garbage) :
    Outdoes kind length s := by
  subst h
  exact ⟨hk,Nat.le_refl _,fun _ => Or.inl rfl⟩

lemma length_le_takeWhile {p : Char → Bool} (hrun : ∀ d ∈ run, p d = true) :
    run.length ≤ ((run ++ rest).takeWhile p).length := by
  rw [List.takeWhile_append_of_pos hrun, List.length_append]
  exact Nat.le_add_right _ _

lemma wordKind_cases (word : List Char) :
    wordKind word = .id ∨ wordKind word ∈ [.kwLanguage,.kwNull] := by
  rw [wordKind]
  split_ifs <;> simp

lemma outdoes_word (hc : isIdStart c = true) (hrun : ∀ d ∈ run, isIdChar d = true)
    (hk : kind = .id ∨ kind = wordKind (c :: run)) :
    Outdoes kind (run.length + 1) (scan c (run ++ rest)) := by
  have hscan : scan c (run ++ rest) = ⟨wordKind (c :: (run ++ rest).takeWhile isIdChar),
      ((run ++ rest).takeWhile isIdChar).length + 1⟩ := by
    unfold scan
    rw [punctuation?_of_isIdStart hc]
    dsimp only
    rw [if_pos hc, List.length_cons]
  rw [hscan]
  refine ⟨?_,Nat.succ_le_succ (length_le_takeWhile hrun),fun hlength => ?_⟩
  · intro hg
    have hkind := wordKind_cases (c :: (run ++ rest).takeWhile isIdChar)
    rw [show wordKind _ = .garbage from hg] at hkind
    simp at hkind
  · -- no character behind the run belongs to the word
    have hwhole : (run ++ rest).takeWhile isIdChar = run := by
      rw [List.takeWhile_append_of_pos hrun] at hlength ⊢
      simpa using hlength
    rw [hwhole]
    rcases hk with rfl | rfl
    · exact (wordKind_cases (c :: run)).imp Eq.symm fun hkind => ⟨rfl,hkind⟩
    · exact Or.inl rfl

lemma outdoes_dotDot (rest : List Char) : Outdoes .dotDot 2 (scan '.' ('.' :: rest)) := by
  cases rest with
  | nil => exact .of_eq rfl (by decide)
  | cons d ds =>
    by_cases hd : d = '.'
    · subst hd
      have hscan : scan '.' ('.' :: '.' :: ds) = ⟨.ellipsis,3⟩ := rfl
      rw [hscan]
      exact ⟨by decide,by decide,by decide⟩
    · refine .of_eq ?_ (by decide)
      simp [scan, hd, punctuation?, isIdStart, isBlank]

lemma outdoes_hole (hne : run ≠ []) (hrun : ∀ d ∈ run, d.isDigit = true) :
    Outdoes .hole (run.length + 1) (scan '#' (run ++ rest)) := by
  have hle := @length_le_takeWhile run rest Char.isDigit hrun
  have hpos := List.length_pos_iff.mpr hne
  have hscan : scan '#' (run ++ rest) = ⟨.hole,1 + ((run ++ rest).takeWhile Char.isDigit).length⟩ := by
    change (if ((run ++ rest).takeWhile Char.isDigit).isEmpty then (⟨.garbage,1⟩ : Scan)
      else ⟨.hole,1 + ((run ++ rest).takeWhile Char.isDigit).length⟩) = _
    apply if_neg
    rw [List.isEmpty_iff_length_eq_zero]
    omega
  rw [hscan]
  exact ⟨by simp,by dsimp only; omega,fun _ => Or.inl rfl⟩

lemma outdoes_whitespace (hc : isBlank c = true) (hrun : ∀ d ∈ run, isBlank d = true) :
    Outdoes .whitespace (run.length + 1) (scan c (run ++ rest)) := by
  have hle := @length_le_takeWhile run rest isBlank hrun
  have hscan : scan c (run ++ rest) =
      ⟨.whitespace,1 + ((run ++ rest).takeWhile isBlank).length⟩ := by
    rcases isBlank_iff.mp hc with rfl | rfl | rfl | rfl <;> rfl
  rw [hscan]
  exact ⟨by simp,by dsimp only; omega,fun _ => Or.inl rfl⟩

lemma outdoes_lineComment (hrun : ∀ d ∈ run, (d != '\n') = true) :
    Outdoes .lineComment (run.length + 2) (scan '/' ('/' :: (run ++ rest))) := by
  have hle := @length_le_takeWhile run rest (· != '\n') hrun
  have hscan : scan '/' ('/' :: (run ++ rest)) =
      ⟨.lineComment,2 + ((run ++ rest).takeWhile (· != '\n')).length⟩ := rfl
  rw [hscan]
  exact ⟨by simp,by dsimp only; omega,fun _ => Or.inl rfl⟩

/-- A string is read to the quote that ends it. -/
lemma scanString_content {body : List Char} (h : body ∈ (content '"')∗) (seen : Nat)
    (rest : List Char) :
    scanString seen (body ++ '"' :: rest) = ⟨.stringLiteral,seen + body.length + 1⟩ := by
  obtain ⟨words,rfl,hwords⟩ := Language.mem_kstar.mp h
  clear h
  induction words generalizing seen with
  | nil => simp [scanString]
  | cons word words ih =>
    rw [List.forall_mem_cons] at hwords
    rw [List.flatten_cons, List.append_assoc]
    obtain ⟨c,rfl,hquote,hslash⟩ | ⟨c,rfl,hc⟩ := mem_content.mp hwords.1
    · rw [List.singleton_append, scanString_cons hquote hslash, ih _ hwords.2]
      simp [Nat.add_assoc, Nat.add_comm 1]
    · change scanString seen ('\\' :: c :: (words.flatten ++ '"' :: rest)) = _
      rw [scanString_escape hc, ih _ hwords.2]
      simp [Nat.add_assoc, Nat.add_comm 2]

lemma scanChar_content {body : List Char} (h : body ∈ content '\'') (rest : List Char) :
    scanChar (body ++ '\'' :: rest) = ⟨.charLiteral,body.length + 2⟩ := by
  obtain ⟨c,rfl,hquote,hslash⟩ | ⟨c,rfl,hc⟩ := mem_content.mp h
  · exact scanChar.eq_6 _ _ (fun _ hd => absurd hd hslash) hslash hquote
  · exact scanChar.eq_2 _ _ hc

/-- Where a rule matches a beginning of a text, the scan takes as much or more. -/
theorem outdoes_of_mem_rule (h : c :: run ∈ kind.rule) (rest : List Char) :
    Outdoes kind (run.length + 1) (scan c (run ++ rest)) := by
  cases kind with
  | parenOpen | parenClose | bracketOpen | bracketClose | braceOpen | braceClose | angleOpen
  | angleClose | comma | semicolon | negation | pipe | ampersand | arrow | ellipsis =>
    cases h
    exact .of_eq rfl (by decide)
  | dotDot =>
    cases h
    exact outdoes_dotDot rest
  | hole =>
    obtain ⟨digits,hword,hne,hdigits⟩ := mem_rule_hole.mp h
    cases hword
    exact outdoes_hole hne hdigits
  | kwLanguage | kwNull =>
    cases h
    exact outdoes_word (by decide) (List.all_eq_true.mp (by decide)) (Or.inr rfl)
  | id =>
    obtain ⟨d,ds,hword,hd,hds⟩ := mem_rule_id.mp h
    cases hword
    exact outdoes_word hd hds (Or.inl rfl)
  | stringLiteral =>
    obtain ⟨body,hbody,hword⟩ := mem_rule_stringLiteral.mp h
    cases hword
    rw [List.append_assoc]
    refine .of_eq ((scanString_content hbody 1 rest).trans ?_) (by decide)
    simp [Nat.add_comm 1]
  | charLiteral =>
    obtain ⟨body,hbody,hword⟩ := mem_rule_charLiteral.mp h
    cases hword
    rw [List.append_assoc]
    refine .of_eq ((scanChar_content hbody rest).trans ?_) (by decide)
    simp
  | whitespace =>
    obtain ⟨-,hall⟩ := mem_rule_whitespace.mp h
    rw [List.forall_mem_cons] at hall
    exact outdoes_whitespace hall.1 hall.2
  | lineComment =>
    obtain ⟨cs,hword,hcs⟩ := mem_rule_lineComment.mp h
    cases hword
    exact outdoes_lineComment hcs
  | garbage | endOfInput => exact absurd h (Language.notMem_zero _)

lemma nil_notMem_rule (kind : Kind) : [] ∉ kind.rule := by
  cases kind with
  | hole => simp [mem_rule_hole]
  | id => simp [mem_rule_id]
  | stringLiteral => simp [mem_rule_stringLiteral]
  | charLiteral => simp [mem_rule_charLiteral]
  | whitespace => simp [mem_rule_whitespace]
  | lineComment => simp [mem_rule_lineComment]
  | garbage | endOfInput => exact Language.notMem_zero _
  | _ => simp [Kind.rule]

lemma outdoes_of_isPrefix {word : List Char} (hp : word <+: c :: cs) (h : word ∈ kind.rule) :
    Outdoes kind word.length (scan c cs) := by
  cases word with
  | nil => exact absurd h (nil_notMem_rule kind)
  | cons d run =>
    obtain ⟨rest,hrest⟩ := hp
    obtain ⟨rfl,rfl⟩ := List.cons.inj hrest
    exact outdoes_of_mem_rule h rest

/-- A token is what the rules make of the front of the text. -/
theorem munches_scan (hk : (scan c cs).kind ≠ .garbage)
    (hlength : (scan c cs).length ≤ cs.length + 1) :
    Munches (scan c cs).kind ((c :: cs).take (scan c cs).length) (c :: cs) := by
  have htake : ((c :: cs).take (scan c cs).length).length = (scan c cs).length := by
    rw [List.length_take, List.length_cons]
    omega
  refine ⟨List.take_prefix _ _,mem_rule_scan c cs hk,fun other word hp hw => ?_,fun other hw => ?_⟩
  · rw [htake]
    exact (outdoes_of_isPrefix hp hw).le
  · exact (outdoes_of_isPrefix (List.take_prefix _ _) hw).first htake

/-- Garbage begins where no rule matches. -/
theorem notMem_rule_of_garbage (hk : (scan c cs).kind = .garbage) {word : List Char}
    (hp : word <+: c :: cs) : word ∉ kind.rule :=
  fun hw => (outdoes_of_isPrefix hp hw).kind_ne hk

/-! Tokens of a source. -/

/-- The text of a token matches the rule of the token's kind. -/
theorem mem_rule_lex (source : String) : ∀ t ∈ lex source, t.kind ≠ .garbage →
    t.text.toList ∈ t.kind.rule := by
  refine forall_join (fun t ht hk => absurd ht hk) (forall_pieces (fun c cs offset => ?_) 0 0 _)
  intro hk
  simpa [tokenAt] using mem_rule_scan c cs hk

/-- No token has the kind that stands for the end. -/
lemma kind_lex_ne (source : String) : ∀ t ∈ lex source, t.kind ≠ .endOfInput := by
  intro t ht hk
  have hmem := mem_rule_lex source t ht (by simp [hk])
  rw [hk] at hmem
  exact Language.notMem_zero _ hmem

lemma exists_digits (source : String) : ∀ t ∈ lex source, t.kind = .hole →
    ∃ digits, t.text.toList = '#' :: digits := by
  intro t ht hk
  have hmem := mem_rule_lex source t ht (by simp [hk])
  rw [hk] at hmem
  obtain ⟨digits,htext,-⟩ := mem_rule_hole.mp hmem
  exact ⟨digits,htext⟩

lemma exists_body (source : String) : ∀ t ∈ lex source,
    t.kind = .stringLiteral ∨ t.kind = .charLiteral →
      ∃ quote body, quote.utf8Size = 1 ∧ t.text.toList = quote :: (body ++ [quote]) := by
  rintro t ht (hk | hk)
  · have hmem := mem_rule_lex source t ht (by simp [hk])
    rw [hk] at hmem
    obtain ⟨body,-,htext⟩ := mem_rule_stringLiteral.mp hmem
    exact ⟨'"',body,rfl,htext⟩
  · have hmem := mem_rule_lex source t ht (by simp [hk])
    rw [hk] at hmem
    obtain ⟨body,-,htext⟩ := mem_rule_charLiteral.mp hmem
    exact ⟨'\'',body,rfl,htext⟩

end Lexer
end TreeRules
