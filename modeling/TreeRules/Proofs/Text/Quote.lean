import TreeRules.Text.Quote
import Mathlib.Tactic.Common

/-! Written forms that tell where they end: runs of characters of one class, numerals, and quoted
characters and strings. Each can be cancelled from the front of a longer text. -/
namespace TreeRules.Text

/-- A text that does not begin with a character of the class. -/
def StopsAt (p : Char → Bool) (r : List Char) : Prop := ∀ c ∈ r.head?, p c = false

/-- A run of one class is found again if what follows begins with another character. -/
lemma run_append_inj {p : Char → Bool} {a b r r' : List Char} (ha : ∀ c ∈ a, p c = true)
    (hb : ∀ c ∈ b, p c = true) (hr : StopsAt p r) (hr' : StopsAt p r')
    (h : a ++ r = b ++ r') : a = b ∧ r = r' := by
  induction a generalizing b with
  | nil =>
    cases b with
    | nil => exact ⟨rfl,h⟩
    | cons d ds =>
      have hd := hr d (by simp [show r = d :: (ds ++ r') from h])
      simp [hb d (by simp)] at hd
  | cons c cs ih =>
    cases b with
    | nil =>
      have hc := hr' c (by simp [← show c :: (cs ++ r) = r' from h])
      simp [ha c (by simp)] at hc
    | cons d ds =>
      obtain ⟨rfl,ht⟩ := List.cons.inj h
      obtain ⟨rfl,rfl⟩ := ih (fun c hc => ha c (by simp [hc])) (fun c hc => hb c (by simp [hc])) ht
      exact ⟨rfl,rfl⟩

lemma digitChar_inj : ∀ m < 16, ∀ n < 16, Nat.digitChar m = Nat.digitChar n → m = n := by decide

/-- A numeral determines its number. -/
lemma toDigits_inj {b : Nat} (hb : 1 < b) (hb' : b ≤ 16) {m n : Nat}
    (h : Nat.toDigits b m = Nat.toDigits b n) : m = n := by
  induction m using Nat.strongRecOn generalizing n with
  | ind m ih =>
    rw [Nat.toDigits_eq_if hb (n := m), Nat.toDigits_eq_if hb (n := n)] at h
    split_ifs at h with hm hn hn
    · exact digitChar_inj m (by omega) n (by omega) (by simpa using h)
    · have hl := congrArg List.length h
      have := Nat.length_toDigits_pos (b := b) (n := n / b)
      simp at hl
    · have hl := congrArg List.length h
      have := Nat.length_toDigits_pos (b := b) (n := m / b)
      simp at hl
    · obtain ⟨hd,hc⟩ := List.append_inj' h rfl
      have hq := ih (m / b) (Nat.div_lt_self (by omega) hb) hd
      have hr := digitChar_inj (m % b) (by have := Nat.mod_lt m (y := b) (by omega); omega)
        (n % b) (by have := Nat.mod_lt n (y := b) (by omega); omega) (by simpa using hc)
      rw [← Nat.div_add_mod m b, ← Nat.div_add_mod n b, hq, hr]

lemma brace_notMem_toDigits (n : Nat) : '\x7d' ∉ Nat.toDigits 16 n := by
  induction n using Nat.strongRecOn with
  | ind n ih =>
    rw [Nat.toDigits_eq_if (by omega)]
    split_ifs with hn
    · simp
    · have hd := ih (n / 16) (Nat.div_lt_self (by omega) (by omega))
      simp [hd]

/-- The characters that are written with a backslash and one letter: letter and character. -/
def shortEscapes (delimiter : Char) : List (Char × Char) :=
  [('0','\x00'),('t','\t'),('r','\r'),('n','\n'),('\\','\\'),(delimiter,delimiter)]

/-- How a character can stand in a quoted text. -/
lemma quoteChar_cases (d c : Char) :
    (quoteChar d c).toList = [c] ∧ c ≠ '\\' ∧ c ≠ d ∨
    (∃ e, (quoteChar d c).toList = ['\\',e] ∧ (e,c) ∈ shortEscapes d) ∨
    (quoteChar d c).toList = '\\' :: 'u' :: '\x7b' :: (Nat.toDigits 16 c.toNat ++ ['\x7d']) := by
  unfold quoteChar
  split_ifs with h0 ht hr hn hb hd hp
  · exact Or.inr (Or.inl ⟨'0',by simp [h0,shortEscapes]⟩)
  · exact Or.inr (Or.inl ⟨'t',by simp [ht,shortEscapes]⟩)
  · exact Or.inr (Or.inl ⟨'r',by simp [hr,shortEscapes]⟩)
  · exact Or.inr (Or.inl ⟨'n',by simp [hn,shortEscapes]⟩)
  · exact Or.inr (Or.inl ⟨'\\',by simp [hb,shortEscapes]⟩)
  · exact Or.inr (Or.inl ⟨c,by simp [hd,shortEscapes]⟩)
  · exact Or.inl ⟨by simp,hb,hd⟩
  · exact Or.inr (Or.inr (by simp [codePointEscape]))

/-- The delimiters in use: letters of short escapes stand for one character each. -/
def IsDelimiter (d : Char) : Prop := d = '"' ∨ d = '\''

lemma shortEscapes_inj {d e c c' : Char} (hd : IsDelimiter d) (h : (e,c) ∈ shortEscapes d)
    (h' : (e,c') ∈ shortEscapes d) : c = c' := by
  rcases hd with rfl | rfl <;> simp only [shortEscapes, List.mem_cons, Prod.mk.injEq] at h h' <;>
    grind

lemma u_notMem_shortEscapes {d c : Char} (hd : IsDelimiter d) : ('u',c) ∉ shortEscapes d := by
  rcases hd with rfl | rfl <;> simp [shortEscapes]

/-- A quoted character determines the character and where it ends. -/
lemma quoteChar_append_inj {d c c' : Char} {r r' : List Char} (hd : IsDelimiter d)
    (h : (quoteChar d c).toList ++ r = (quoteChar d c').toList ++ r') : c = c' ∧ r = r' := by
  obtain ⟨hc,hb,-⟩ | ⟨e,hc,he⟩ | hc := quoteChar_cases d c <;>
    obtain ⟨hc',hb',-⟩ | ⟨e',hc',he'⟩ | hc' := quoteChar_cases d c' <;>
    rw [hc,hc'] at h <;>
    simp only [List.cons_append, List.nil_append, List.cons.injEq, List.append_assoc] at h
  · exact h
  · exact absurd h.1 hb
  · exact absurd h.1 hb
  · exact absurd h.1.symm hb'
  · obtain ⟨-,rfl,hr⟩ := h
    exact ⟨shortEscapes_inj hd he he',hr⟩
  · obtain ⟨-,rfl,-⟩ := h
    exact absurd he (u_notMem_shortEscapes hd)
  · exact absurd h.1.symm hb'
  · obtain ⟨-,rfl,-⟩ := h
    exact absurd he' (u_notMem_shortEscapes hd)
  · obtain ⟨-,-,-,h⟩ := h
    have hstop : ∀ r : List Char, StopsAt (· != '\x7d') ('\x7d' :: r) := by simp [StopsAt]
    have hrun : ∀ n : Nat, ∀ x ∈ Nat.toDigits 16 n, (x != '\x7d') = true := by
      intro n x hx
      simp only [bne_iff_ne]
      rintro rfl
      exact brace_notMem_toDigits n hx
    obtain ⟨hn,hr⟩ := run_append_inj (hrun _) (hrun _) (hstop r) (hstop r') h
    exact ⟨Char.toNat_inj.mp (toDigits_inj (by omega) (by omega) hn),(List.cons.inj hr).2⟩

lemma quoteChar_ne_delimiter {d c : Char} (hd : IsDelimiter d) {r r' : List Char} :
    (quoteChar d c).toList ++ r ≠ d :: r' := by
  intro h
  obtain ⟨hc,-,hne⟩ | ⟨e,hc,-⟩ | hc := quoteChar_cases d c <;> rw [hc] at h
  · exact hne (List.cons.inj h).1
  · rcases hd with rfl | rfl <;> simp at h
  · rcases hd with rfl | rfl <;> simp at h

/-- Quoted characters up to the closing delimiter determine the characters. -/
lemma quoteChars_append_inj {d : Char} (hd : IsDelimiter d) {s s' r r' : List Char}
    (h : (quoteChars d s).toList ++ d :: r = (quoteChars d s').toList ++ d :: r') :
    s = s' ∧ r = r' := by
  induction s generalizing s' with
  | nil =>
    cases s' with
    | nil => exact ⟨rfl,by simpa [quoteChars] using h⟩
    | cons c' cs' =>
      simp only [quoteChars, String.toList_append, List.append_assoc] at h
      exact absurd h.symm (quoteChar_ne_delimiter hd)
  | cons c cs ih =>
    cases s' with
    | nil =>
      simp only [quoteChars, String.toList_append, List.append_assoc] at h
      exact absurd h (quoteChar_ne_delimiter hd)
    | cons c' cs' =>
      simp only [quoteChars, String.toList_append, List.append_assoc] at h
      obtain ⟨rfl,ht⟩ := quoteChar_append_inj hd h
      obtain ⟨rfl,rfl⟩ := ih ht
      exact ⟨rfl,rfl⟩

/-- A quoted string determines the string and where it ends. -/
lemma quoted_append_inj {s s' : String} {r r' : List Char}
    (h : (quoted s).toList ++ r = (quoted s').toList ++ r') : s = s' ∧ r = r' := by
  simp only [quoted, String.toList_append, List.append_assoc] at h
  obtain ⟨hs,hr⟩ := quoteChars_append_inj (Or.inl rfl) (List.append_cancel_left h)
  exact ⟨String.toList_inj.mp hs,hr⟩

/-- A quoted character between its quotes determines the character and where it ends. -/
lemma quotedChar_append_inj {c c' : Char} {r r' : List Char}
    (h : (quotedChar c).toList ++ r = (quotedChar c').toList ++ r') : c = c' ∧ r = r' := by
  simp only [quotedChar, String.toList_append, List.append_assoc] at h
  obtain ⟨rfl,hr⟩ := quoteChar_append_inj (Or.inr rfl) (List.append_cancel_left h)
  exact ⟨rfl,List.append_cancel_left hr⟩

end TreeRules.Text
