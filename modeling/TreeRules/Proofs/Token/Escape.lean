import TreeRules.Proofs.Text.Quote
import TreeRules.Token.Escape
import TreeRules.Token.Lexer

/-! Quoted text, read back. A literal is read back to its end, and its escapes resolve to what was
quoted unless a character is written by its code. -/
namespace TreeRules

open Text

/-- A character that is quoted as `\0` or by its code point. -/
def Text.ByCode (delimiter c : Char) : Prop :=
  quoteChar delimiter c = "\\0" ∨ quoteChar delimiter c = codePointEscape c

instance (delimiter c : Char) : Decidable (ByCode delimiter c) :=
  inferInstanceAs (Decidable (_ ∨ _))

variable {d c : Char}

/-- A character that is not written by its code stands for itself, or has an escape that the lexer
knows. -/
lemma quoteChar_of_not_byCode (hd : IsDelimiter d) (h : ¬ ByCode d c) :
    (quoteChar d c).toList = [c] ∧ c ≠ '\\' ∧ c ≠ d ∨
      ∃ e, (quoteChar d c).toList = ['\\',e] ∧ escaped? e = some c ∧ e ≠ '\n' := by
  obtain hc | ⟨e,hc,he⟩ | hc := quoteChar_cases d c
  · exact Or.inl hc
  · refine Or.inr ⟨e,hc,?_⟩
    simp only [shortEscapes, List.mem_cons, Prod.mk.injEq, List.not_mem_nil, or_false] at he
    rcases he with ⟨rfl,-⟩ | ⟨rfl,rfl⟩ | ⟨rfl,rfl⟩ | ⟨rfl,rfl⟩ | ⟨rfl,rfl⟩ | ⟨rfl,rfl⟩
    · exact absurd (Or.inl (String.toList_inj.mp hc)) h
    · decide
    · decide
    · decide
    · decide
    · rcases hd with rfl | rfl <;> decide
  · refine absurd (Or.inr (String.toList_inj.mp ?_)) h
    rw [hc, codePointEscape]
    simp

lemma quoteChar_of_byCode (h : ByCode d c) :
    (quoteChar d c).toList = ['\\','0'] ∨
      ∃ digits, (quoteChar d c).toList = '\\' :: 'u' :: '\x7b' :: digits := by
  rcases h with h | h <;> rw [h]
  · exact Or.inl rfl
  · exact Or.inr ⟨_,by simp only [codePointEscape, String.toList_append, List.append_assoc]; rfl⟩

/-! Resolving escapes. -/

lemma unescapeChars_cons {cs : List Char} (h : c ≠ '\\') :
    unescapeChars (c :: cs) = (unescapeChars cs).map (c :: ·) := by
  rw [unescapeChars]
  · exact fun hc _ => h hc
  · exact fun _ _ hc _ => h hc

lemma unescapeChars_quoteChar (hd : IsDelimiter d) (h : ¬ ByCode d c) (rest : List Char) :
    unescapeChars ((quoteChar d c).toList ++ rest) = (unescapeChars rest).map (c :: ·) := by
  obtain ⟨hc,hb,-⟩ | ⟨e,hc,he,-⟩ := quoteChar_of_not_byCode hd h
  · rw [hc]
    exact unescapeChars_cons hb
  · rw [hc]
    change unescapeChars ('\\' :: e :: rest) = _
    rw [unescapeChars, he]

lemma unescapeChars_byCode (h : ByCode d c) (rest : List Char) :
    ∃ e, unescapeChars ((quoteChar d c).toList ++ rest) = .error e := by
  obtain hc | ⟨digits,hc⟩ := quoteChar_of_byCode h
  · exact ⟨"\\0",by rw [hc]; rfl⟩
  · exact ⟨"\\u",by rw [hc]; rfl⟩

/-- The escapes of a quoted text resolve to the text. -/
theorem unescapeChars_quoteChars (hd : IsDelimiter d) {s : List Char}
    (h : ∀ c ∈ s, ¬ ByCode d c) : unescapeChars (quoteChars d s).toList = .ok s := by
  induction s with
  | nil => rfl
  | cons c s ih =>
    rw [List.forall_mem_cons] at h
    rw [quoteChars, String.toList_append, unescapeChars_quoteChar hd h.1, ih h.2]
    rfl

/-- Where a character is written by its code they do not resolve. -/
theorem unescapeChars_quoteChars_ne (hd : IsDelimiter d) {s : List Char}
    (h : ∃ c ∈ s, ByCode d c) (chars : List Char) :
    unescapeChars (quoteChars d s).toList ≠ .ok chars := by
  induction s generalizing chars with
  | nil =>
    obtain ⟨c,hc,-⟩ := h
    cases hc
  | cons c s ih =>
    rw [quoteChars, String.toList_append]
    by_cases hc : ByCode d c
    · obtain ⟨e,he⟩ := unescapeChars_byCode hc (quoteChars d s).toList
      simp [he]
    · have hs : ∃ x ∈ s, ByCode d x := by simpa [hc] using h
      rw [unescapeChars_quoteChar hd hc]
      cases hrest : unescapeChars (quoteChars d s).toList with
      | error e => exact fun h => by cases h
      | ok rest => exact absurd hrest (ih hs rest)

/-! Finding the end of a literal. -/

namespace Lexer

lemma scanString_cons {seen : Nat} {cs : List Char} (hq : c ≠ '"') (hb : c ≠ '\\') :
    scanString seen (c :: cs) = scanString (seen + 1) cs := by
  rw [scanString]
  · exact hq
  · exact fun hc _ => hb hc
  · exact fun _ hc _ => hb hc
  · exact fun _ _ hc _ => hb hc

/-- Characters that neither end a string nor begin an escape. -/
lemma scanString_run {seen : Nat} {run rest : List Char}
    (h : ∀ c ∈ run, c ≠ '"' ∧ c ≠ '\\') :
    scanString seen (run ++ rest) = scanString (seen + run.length) rest := by
  induction run generalizing seen with
  | nil => rfl
  | cons c run ih =>
    rw [List.forall_mem_cons] at h
    rw [List.cons_append, scanString_cons h.1.1 h.1.2, ih h.2, List.length_cons]
    congr 1
    omega

lemma scanString_escape {seen : Nat} {e : Char} {rest : List Char} (he : e ≠ '\n') :
    scanString seen ('\\' :: e :: rest) = scanString (seen + 2) rest := by
  rw [scanString]
  exact he

lemma ne_of_mem_toDigits {n : Nat} : ∀ c ∈ Nat.toDigits 16 n, c ≠ '"' ∧ c ≠ '\\' := by
  induction n using Nat.strongRecOn with
  | ind n ih =>
    have hdigit : ∀ m < 16, Nat.digitChar m ≠ '"' ∧ Nat.digitChar m ≠ '\\' := by decide
    rw [Nat.toDigits_eq_if (by omega)]
    split_ifs with hn
    · simp
    · intro c hc
      rcases List.mem_append.mp hc with hc | hc
      · exact ih (n / 16) (Nat.div_lt_self (by omega) (by omega)) c hc
      · rw [List.mem_singleton.mp hc]
        exact hdigit (n % 16) (Nat.mod_lt n (by omega))

lemma scanString_quoteChar (seen : Nat) (c : Char) (rest : List Char) :
    scanString seen ((quoteChar '"' c).toList ++ rest) =
      scanString (seen + (quoteChar '"' c).toList.length) rest := by
  obtain ⟨hc,hb,hq⟩ | ⟨e,hc,he⟩ | hc := quoteChar_cases '"' c
  · rw [hc]
    exact scanString_cons hq hb
  · rw [hc]
    refine scanString_escape ?_
    rintro rfl
    simp [shortEscapes] at he
  · rw [hc]
    change scanString seen ('\\' :: 'u' :: ('\x7b' :: (Nat.toDigits 16 c.toNat ++ ['\x7d']) ++ rest)) = _
    rw [scanString_escape (by decide), scanString_run]
    · simp only [List.length_cons, List.length_append, List.length_nil]
      congr 1
      omega
    · intro x hx
      simp only [List.mem_cons, List.mem_append, List.not_mem_nil, or_false] at hx
      rcases hx with rfl | hx | rfl
      · decide
      · exact ne_of_mem_toDigits x hx
      · decide

/-- A quoted string is one literal. -/
lemma scanString_quoteChars (seen : Nat) (s rest : List Char) :
    scanString seen ((quoteChars '"' s).toList ++ '"' :: rest) =
      ⟨.stringLiteral,seen + (quoteChars '"' s).toList.length + 1⟩ := by
  induction s generalizing seen with
  | nil => simp [quoteChars, scanString]
  | cons c s ih =>
    rw [quoteChars, String.toList_append, List.append_assoc, scanString_quoteChar, ih,
      List.length_append, Nat.add_assoc seen]

/-- A quoted character is one literal if it is not written by its code. -/
lemma scanChar_quoteChar (h : ¬ ByCode '\'' c) (rest : List Char) :
    scanChar ((quoteChar '\'' c).toList ++ '\'' :: rest) =
      ⟨.charLiteral,(quoteChar '\'' c).toList.length + 2⟩ := by
  obtain ⟨hc,hb,hq⟩ | ⟨e,hc,-,he⟩ := quoteChar_of_not_byCode (Or.inr rfl) h
  · rw [hc]
    change scanChar (c :: '\'' :: rest) = _
    rw [scanChar]
    · rfl
    · exact fun _ hc _ => hb hc
    · exact hb
    · exact hq
  · rw [hc]
    change scanChar ('\\' :: e :: '\'' :: rest) = _
    rw [scanChar]
    · rfl
    · exact he

/-- Written by its code it is a literal with an unknown escape, or none at all. -/
lemma scanChar_byCode (h : ByCode '\'' c) (rest : List Char) :
    (quoteChar '\'' c).toList = ['\\','0'] ∧
        scanChar ((quoteChar '\'' c).toList ++ '\'' :: rest) = ⟨.charLiteral,4⟩ ∨
      (scanChar ((quoteChar '\'' c).toList ++ '\'' :: rest)).kind = .garbage := by
  obtain hc | ⟨digits,hc⟩ := quoteChar_of_byCode h <;> rw [hc]
  · exact Or.inl ⟨rfl,rfl⟩
  · exact Or.inr rfl

end Lexer

end TreeRules
