import AlterTable.Proofs.Grammar.Rules

/-!
# Looking ahead

How a text goes on is told by its `lead`: the first thing in it behind white space, a keyword, a
number, another word, a mark, or the end. A derivation of a production begins with one of the
leads in `Production.first`, unless it derives nothing, which only a `nullable` one does. So where
two productions have no lead in common, the text itself says which of them can be derived.

A Kelvin sign with nothing behind it is a lead of its own, since it is a name to the grammar and
may be taken for a keyword. Whatever takes it takes the rest of the text, so it is no lead of a
part with something behind it: `Production.heads` leaves it out where more has to come.
-/

namespace AlterTable.Grammar

open AlterTable.Parse

/-! ## Leads -/

/-- What a text begins with, behind white space. -/
inductive Lead where
  | stop
  /-- A Kelvin sign that is all that is left of the text. -/
  | kelvin
  | keyword (k : Keyword)
  /-- A word that begins with a digit. -/
  | number
  /-- Any other word. -/
  | name
  /-- A character that is neither white space nor part of a word. -/
  | mark (c : Char)
deriving DecidableEq, Repr, Inhabited

/-- The lead of a text that begins with this word. -/
def wordLead (w : List Char) : Lead :=
  match Keyword.all.find? fun k => Text.lower w == k.letters with
  | some k => .keyword k
  | none => if w.head?.any Char.isDigit then .number else .name

/-- The lead of a text. -/
def lead (s : List Char) : Lead :=
  match s.dropWhile isGap with
  | [] => .stop
  | c :: r =>
    if c = kelvinSign ∧ r = [] then .kelvin
    else if isIdentifierChar c then wordLead ((c :: r).takeWhile isIdentifierChar)
    else .mark c

/-- The characters of bare names are the ASCII letters and digits, the underscore, the dollar sign
and everything from U+0080 to U+FFFF. -/
theorem isIdentifierChar_iff {c : Char} : isIdentifierChar c = true ↔
    c.isUpper = true ∨ c.isLower = true ∨ c.isDigit = true ∨ c = '_' ∨ c = '$' ∨
      (128 ≤ c.toNat ∧ c.toNat ≤ 65535) := by
  show (c.isUpper || c.isLower || c.isDigit || c == '_' || c == '$' || _) = true ↔ _
  simp [or_assoc]

/-- White space is in no bare name. -/
theorem not_isIdentifierChar_of_isGap {c : Char} (h : isGap c = true) :
    isIdentifierChar c = false := by
  simp only [isGap, Bool.or_eq_true, beq_iff_eq] at h
  rcases h with ((rfl | rfl) | rfl) | rfl <;> decide

/-- A character of bare names is no white space. -/
theorem not_isGap_of_isIdentifierChar {c : Char} (h : isIdentifierChar c = true) :
    isGap c = false := by
  cases hg : isGap c with
  | false => rfl
  | true => rw [not_isIdentifierChar_of_isGap hg] at h; cases h

/-- A word has none of the characters that end one. -/
theorem IsWord.notMem {w : List Char} {d : Char} (h : IsWord w) (hd : isIdentifierChar d = false) :
    d ∉ w := by
  intro hmem
  rw [h.2 d hmem] at hd
  cases hd

/-- Digits may stand in bare names. -/
theorem isIdentifierChar_of_isDigit {c : Char} (h : c.isDigit = true) :
    isIdentifierChar c = true :=
  isIdentifierChar_iff.mpr (.inr (.inr (.inl h)))

/-- The characters of a class that a text begins with, where another character or none follows. -/
theorem takeWhile_append_of_all {p : Char → Bool} {w r : List Char} (hw : ∀ c ∈ w, p c = true)
    (hr : r.head?.any p = false) : (w ++ r).takeWhile p = w := by
  rw [List.takeWhile_append_of_pos hw]
  cases r with
  | nil => simp
  | cons c r =>
    have hc : p c = false := hr
    simp [hc]

/-- White space does not change the lead of what follows it. -/
@[simp] theorem lead_gap_append {g : List Char} (hg : Gap g) (s : List Char) :
    lead (g ++ s) = lead s := by
  rw [lead, List.dropWhile_append_of_pos hg, lead]

/-- A character outside words and white space is its own lead. -/
theorem lead_mark {c : Char} (hg : isGap c = false) (hi : isIdentifierChar c = false)
    (r : List Char) : lead (c :: r) = .mark c := by
  have hc : c ≠ kelvinSign := by
    rintro rfl
    revert hi
    decide
  simp [lead, hg, hi, hc]

private theorem lead_of_isIdentifierChar {c : Char} {r : List Char} (hc : isIdentifierChar c = true)
    (hk : ¬ (c = kelvinSign ∧ r = [])) :
    lead (c :: r) = wordLead ((c :: r).takeWhile isIdentifierChar) := by
  simp only [lead, List.dropWhile_cons, not_isGap_of_isIdentifierChar hc, Bool.false_eq_true,
    if_false, if_neg hk, hc, if_true]

/-- A word that ends is the lead of its text, unless it is a Kelvin sign at the end of it. -/
theorem lead_word {w r : List Char} (hw : IsWord w) (hr : Ends r)
    (hk : ¬ (w = [kelvinSign] ∧ r = [])) : lead (w ++ r) = wordLead w := by
  obtain ⟨hne, hall⟩ := hw
  obtain ⟨c, w, rfl⟩ := List.exists_cons_of_ne_nil hne
  have hk' : ¬ (c = kelvinSign ∧ w ++ r = []) := by
    rintro ⟨rfl, hnil⟩
    obtain ⟨rfl, rfl⟩ := List.append_eq_nil_iff.mp hnil
    exact hk ⟨rfl, rfl⟩
  rw [List.cons_append, lead_of_isIdentifierChar (hall c List.mem_cons_self) hk',
    ← List.cons_append, takeWhile_append_of_all hall hr]

/-- The text is white space and a Kelvin sign. -/
theorem lead_eq_kelvin_iff {s : List Char} : lead s = .kelvin ↔ IsLoneSign s := by
  constructor
  · intro h
    refine ⟨s.takeWhile isGap, fun c hc => List.all_eq_true.mp List.all_takeWhile c hc, ?_⟩
    have hsplit := List.takeWhile_append_dropWhile (p := isGap) (l := s)
    unfold lead at h
    split at h
    next => cases h
    next c r hcr =>
      split at h
      next hk =>
        obtain ⟨rfl, rfl⟩ := hk
        rw [← hcr, hsplit]
      next =>
        split at h
        · unfold wordLead at h
          split at h
          · cases h
          · split at h <;> cases h
        · cases h
  · rintro ⟨g, hg, rfl⟩
    rw [lead_gap_append hg]
    rfl

/-! ## Words -/

/-- Keywords have their letters apart from each other. -/
theorem Keyword.letters_injective {k k' : Keyword} (h : k.letters = k'.letters) : k = k' := by
  have hall : ∀ a ∈ Keyword.all, ∀ b ∈ Keyword.all, a.letters = b.letters → a = b := by
    decide
  exact hall k k.mem_all k' k'.mem_all h

/-- A word is taken for a keyword just if its letters are those of the keyword. -/
theorem wordLead_eq_keyword_iff {w : List Char} {k : Keyword} :
    wordLead w = .keyword k ↔ Text.lower w = k.letters := by
  unfold wordLead
  constructor
  · intro h
    split at h
    next k' hk' =>
      cases h
      simpa using List.find?_some hk'
    next => split at h <;> cases h
  · intro h
    have hfound : Keyword.all.find? (fun k' => Text.lower w == k'.letters) = some k := by
      cases hf : Keyword.all.find? (fun k' => Text.lower w == k'.letters) with
      | none => exact absurd h (by simpa using List.find?_eq_none.mp hf k k.mem_all)
      | some k' =>
        have hk' : Text.lower w = k'.letters := by simpa using List.find?_some hf
        rw [Keyword.letters_injective (hk'.symm.trans h)]
    rw [hfound]

/-- The code points of the capital letters. -/
theorem toNat_of_isUpper {c : Char} (h : c.isUpper = true) : 65 ≤ c.toNat ∧ c.toNat ≤ 90 := by
  obtain ⟨hge, hle⟩ := of_decide_eq_true h
  exact ⟨UInt32.le_iff_toNat_le.mp hge, UInt32.le_iff_toNat_le.mp hle⟩

/-- The code points of the small letters. -/
theorem toNat_of_isLower {c : Char} (h : c.isLower = true) : 97 ≤ c.toNat ∧ c.toNat ≤ 122 := by
  obtain ⟨hge, hle⟩ := Bool.and_eq_true_iff.mp h
  exact ⟨UInt32.le_iff_toNat_le.mp (of_decide_eq_true hge),
    UInt32.le_iff_toNat_le.mp (of_decide_eq_true hle)⟩

/-- The code points of the digits. -/
theorem toNat_of_isDigit {c : Char} (h : c.isDigit = true) : 48 ≤ c.toNat ∧ c.toNat ≤ 57 := by
  simpa [Char.isDigit, UInt32.le_iff_toNat_le] using h

/-- What is no capital letter stays as it is in lower case. -/
theorem toLower_of_not_isUpper {c : Char} (h : c.isUpper = false) : c.toLower = c :=
  dif_neg (of_decide_eq_false h)

/-- Only a capital is not its own small letter. -/
theorem isUpper_or_toLower (c : Char) : c.isUpper = true ∨ c.toLower = c := by
  cases h : c.isUpper with
  | false => exact .inr (toLower_of_not_isUpper h)
  | true => exact .inl rfl

/-- A digit has no small letter. -/
theorem toLower_of_isDigit {c : Char} (h : c.isDigit = true) : c.toLower = c := by
  refine toLower_of_not_isUpper (Bool.eq_false_iff.mpr fun hu => ?_)
  have hdigit := toNat_of_isDigit h
  have hupper := toNat_of_isUpper hu
  omega

/-- No keyword contains a digit. -/
theorem Keyword.not_isDigit_of_mem_letters {k : Keyword} {c : Char} (h : c ∈ k.letters) :
    c.isDigit = false := by
  have hall : ∀ k ∈ Keyword.all, k.letters.all (!·.isDigit) = true := by decide
  exact (Bool.not_eq_true' _).mp (List.all_eq_true.mp (hall k k.mem_all) c h)

/-- What differs from a keyword in letter case at most is a word. -/
theorem Keyword.isWord_of_lower {k : Keyword} {w : List Char} (h : Text.lower w = k.letters) :
    IsWord w := by
  refine ⟨?_, fun c hc => ?_⟩
  · rintro rfl
    cases k <;> cases h
  · have hmem : c.toLower ∈ k.letters := h ▸ List.mem_map_of_mem hc
    have hl := List.all_eq_true.mp k.all_letters _ hmem
    rcases isUpper_or_toLower c with hu | hsame
    · exact isIdentifierChar_iff.mpr (.inl hu)
    · rw [hsame, Bool.or_eq_true, beq_iff_eq] at hl
      rcases hl with hl | rfl
      · exact isIdentifierChar_iff.mpr (.inr (.inl hl))
      · decide

/-- A word that begins with a digit is no keyword. -/
theorem wordLead_of_digit {w : List Char} (h : w.head?.any Char.isDigit = true) :
    wordLead w = .number := by
  cases w with
  | nil => cases h
  | cons c w =>
    have hc : c.isDigit = true := h
    have hnone : Keyword.all.find? (fun k => Text.lower (c :: w) == k.letters) = none := by
      rw [List.find?_eq_none]
      intro k _ hk
      have hletters : c.toLower :: Text.lower w = k.letters := beq_iff_eq.mp hk
      have hmem : c ∈ k.letters := by
        rw [← hletters, toLower_of_isDigit hc]
        exact List.mem_cons_self
      rw [Keyword.not_isDigit_of_mem_letters hmem] at hc
      cases hc
    rw [wordLead, hnone]
    exact if_pos h

/-- A word that is not reserved is one of the two keywords that are not, or none. -/
theorem wordLead_of_not_reserves {w : List Char} (h : Keyword.reserves w = false) :
    wordLead w ∈ [.name, .number, .keyword .asc, .keyword .desc] := by
  unfold wordLead
  split
  next k hk =>
    have hlower : Text.lower w = k.letters := by simpa using List.find?_some hk
    have hfree : k.isReserved = false := by
      cases hr : k.isReserved with
      | false => rfl
      | true => rw [Keyword.reserves_iff.mpr ⟨k, hr, hlower⟩] at h; cases h
    cases k <;> first | (cases hfree; done) | decide
  next => split <;> decide

/-! ## First leads -/

namespace Token

/-- The token can be written with nothing but white space. -/
def nullable : Token → Bool
  | space => true
  | stop => true
  | _ => false

/-- The leads of the texts that begin with the token. -/
def first : Token → List Lead
  | keyword .key => [.keyword .key, .kelvin]
  | keyword k => [.keyword k]
  | mark m => [.mark m.char]
  | dot => [.mark '.']
  | identifier =>
    [.mark Text.backQuote, .kelvin, .name, .number, .keyword .asc, .keyword .desc]
  | digits => [.number]
  | string => [.mark quote]
  | literal => [.mark quote, .mark '-', .kelvin, .number, .name] ++ Keyword.all.map .keyword
  | space => []
  | stop => []

/-- A keyword in letters is a lead of that keyword only. -/
theorem keyword_mem_first_iff {k k' : Keyword} :
    Lead.keyword k' ∈ (keyword k).first ↔ k' = k := by
  cases k <;> simp [first]

private theorem stop_notMem_first (t : Token) : Lead.stop ∉ t.first := by
  cases t with
  | keyword k => cases k <;> decide
  | _ => simp [first]

private theorem not_nullable_of_mem_first {t : Token} {l : Lead} (h : l ∈ t.first) :
    t.nullable = false := by
  cases t with
  | space => cases h
  | stop => cases h
  | _ => rfl

private theorem lead_quotedName {w : List Char} (h : IsQuotedName w) (r : List Char) :
    lead (w ++ r) = .mark Text.backQuote := by
  obtain ⟨q, -, -, rfl⟩ := h
  exact lead_mark (by decide) (by decide) _

private theorem lead_stringText (s r : List Char) : lead (stringText s ++ r) = .mark quote :=
  lead_mark (by decide) (by decide) _

/-- Digits begin with a number. -/
theorem lead_digits {w : List Char} (h : IsDigits w) (r : List Char) :
    lead (w ++ r) = .number := by
  obtain ⟨hne, hall⟩ := h
  obtain ⟨c, w, rfl⟩ := List.exists_cons_of_ne_nil hne
  have hc := hall c List.mem_cons_self
  have hi := isIdentifierChar_of_isDigit hc
  have hk : c ≠ kelvinSign := by
    rintro rfl
    revert hc
    decide
  rw [List.cons_append, lead_of_isIdentifierChar hi fun h => hk h.1, wordLead_of_digit]
  simp [hi, hc]

private theorem lead_number {w : List Char} (h : IsNumber w) (r : List Char) :
    lead (w ++ r) = .mark '-' ∨ lead (w ++ r) = .number := by
  obtain ⟨sign, whole, fraction, rfl, rfl | rfl, hwhole, -⟩ := h
  · right
    rw [List.nil_append, List.append_assoc]
    exact lead_digits hwhole _
  · left
    exact lead_mark (by decide) (by decide) _

private theorem lead_keyword {k : Keyword} {w r : List Char} (hw : Text.lower w = k.letters)
    (hr : Ends r) : lead (w ++ r) = .keyword k := by
  rw [lead_word (Keyword.isWord_of_lower hw) hr, wordLead_eq_keyword_iff.mpr hw]
  rintro ⟨rfl, -⟩
  cases k <;> cases hw

/-- Where a keyword is spelled, the text begins with the keyword. -/
theorem Spelled.lead_keyword {k : Keyword} {w r : List Char}
    (h : Token.Spelled (.keyword k) w r) : lead (w ++ r) = .keyword k := by
  cases h with
  | keyword hg hw hr =>
    rw [List.append_assoc, lead_gap_append hg]
    exact Token.lead_keyword hw hr

/-- An unquoted name is a word, or a Kelvin sign at the end. -/
theorem lead_bareName {w r : List Char} (hw : IsWord w) (hfree : Keyword.reserves w = false)
    (hr : Ends r) : lead (w ++ r) ∈ identifier.first := by
  by_cases hk : w = [kelvinSign] ∧ r = []
  · obtain ⟨rfl, rfl⟩ := hk
    decide
  · rw [lead_word hw hr hk]
    exact List.mem_cons_of_mem _ (List.mem_cons_of_mem _ (wordLead_of_not_reserves hfree))

private theorem lead_wordLiteral {w r : List Char} (hw : IsWord w)
    (hd : w.head?.any Char.isDigit = false) (hr : Ends r) : lead (w ++ r) ∈ literal.first := by
  by_cases hk : w = [kelvinSign] ∧ r = []
  · obtain ⟨rfl, rfl⟩ := hk
    decide
  · rw [lead_word hw hr hk, wordLead]
    split
    next k _ => simp [first, Keyword.mem_all]
    next => simp [first, hd]

private theorem Spelled.lead_or_nullable {t : Token} {w r : List Char} (h : t.Spelled w r) :
    lead (w ++ r) ∈ t.first ∨ (t.nullable = true ∧ lead (w ++ r) = lead r) := by
  cases h with
  | @keyword k g w _ hg hw hr =>
    left
    rw [List.append_assoc, lead_gap_append hg, Token.lead_keyword hw hr]
    exact keyword_mem_first_iff.mpr rfl
  | @mark m g _ hg =>
    left
    rw [List.append_assoc, lead_gap_append hg, List.singleton_append,
      lead_mark (by cases m <;> decide) (by cases m <;> decide)]
    exact List.mem_singleton_self _
  | dot => exact .inl (List.mem_singleton_self _)
  | quotedName hg hw =>
    left
    rw [List.append_assoc, lead_gap_append hg, lead_quotedName hw]
    exact List.mem_cons_self
  | bareName hg hw hfree hr =>
    left
    rw [List.append_assoc, lead_gap_append hg]
    exact lead_bareName hw hfree hr
  | digits hg hw =>
    left
    rw [List.append_assoc, lead_gap_append hg, lead_digits hw]
    exact List.mem_singleton_self _
  | string hg =>
    left
    rw [List.append_assoc, lead_gap_append hg, lead_stringText]
    exact List.mem_singleton_self _
  | stringLiteral hg =>
    left
    rw [List.append_assoc, lead_gap_append hg, lead_stringText]
    exact List.mem_cons_self
  | numberLiteral hg hw =>
    left
    rw [List.append_assoc, lead_gap_append hg]
    rcases lead_number hw r with h | h <;> rw [h] <;> decide
  | wordLiteral hg hw hd hr =>
    left
    rw [List.append_assoc, lead_gap_append hg]
    exact lead_wordLiteral hw hd hr
  | space hg _ => exact .inr ⟨rfl, lead_gap_append hg _⟩
  | stop => exact .inr ⟨rfl, rfl⟩

/-- A text that begins with a token has one of the token's leads. -/
theorem Accepted.lead_or_nullable {t : Token} {w r : List Char} (h : t.Accepted w r) :
    lead (w ++ r) ∈ t.first ∨ (t.nullable = true ∧ lead (w ++ r) = lead r) := by
  rcases h with h | ⟨rfl, rfl, g, hg, rfl⟩
  · exact h.lead_or_nullable
  · left
    rw [List.append_nil, lead_gap_append hg]
    exact List.mem_cons_of_mem _ (List.mem_singleton_self _)

/-- A word has a character that is no white space. -/
theorem exists_not_isGap_of_isWord {w : List Char} (h : IsWord w) : ∃ d ∈ w, isGap d = false := by
  obtain ⟨d, w, rfl⟩ := List.exists_cons_of_ne_nil h.1
  exact ⟨d, List.mem_cons_self, not_isGap_of_isIdentifierChar (h.2 d List.mem_cons_self)⟩

/-- Only white space and the end of the text can be written with white space alone. -/
theorem Accepted.exists_not_isGap {t : Token} {w r : List Char} (h : t.Accepted w r)
    (ht : t.nullable = false) : ∃ d ∈ w, isGap d = false := by
  have hbehind : ∀ {g v : List Char}, (∃ d ∈ v, isGap d = false) → ∃ d ∈ g ++ v, isGap d = false :=
    fun ⟨d, hd, hgap⟩ => ⟨d, List.mem_append_right _ hd, hgap⟩
  have hquote : ∀ s, ∃ d ∈ stringText s, isGap d = false :=
    fun s => ⟨quote, List.mem_cons_self, by decide⟩
  rcases h with h | ⟨rfl, rfl, g, hg, rfl⟩
  · cases h with
    | keyword _ hw _ => exact hbehind (exists_not_isGap_of_isWord (Keyword.isWord_of_lower hw))
    | @mark m => exact hbehind ⟨m.char, List.mem_singleton_self _, by cases m <;> decide⟩
    | dot => exact ⟨'.', List.mem_singleton_self _, by decide⟩
    | quotedName _ hw =>
      obtain ⟨q, -, -, rfl⟩ := hw
      exact hbehind ⟨_, List.mem_cons_self, by decide⟩
    | bareName _ hw _ _ => exact hbehind (exists_not_isGap_of_isWord hw)
    | digits _ hw =>
      exact hbehind (exists_not_isGap_of_isWord
        ⟨hw.1, fun d hd => isIdentifierChar_of_isDigit (hw.2 d hd)⟩)
    | string _ => exact hbehind (hquote _)
    | stringLiteral _ => exact hbehind (hquote _)
    | numberLiteral _ hw =>
      obtain ⟨sign, whole, fraction, rfl, -, hwhole, -⟩ := hw
      obtain ⟨d, hd, hgap⟩ := exists_not_isGap_of_isWord
        ⟨hwhole.1, fun d hd => isIdentifierChar_of_isDigit (hwhole.2 d hd)⟩
      exact hbehind ⟨d, List.mem_append_left _ (List.mem_append_right _ hd), hgap⟩
    | wordLiteral _ hw _ _ => exact hbehind (exists_not_isGap_of_isWord hw)
    | space _ _ => cases ht
    | stop => cases ht
  · exact ⟨kelvinSign, List.mem_append_right _ (List.mem_singleton_self _), by decide⟩

/-- What takes a Kelvin sign that is all that is left leaves nothing. -/
theorem Accepted.eq_nil_of_kelvin {t : Token} {w r : List Char} (h : t.Accepted w r)
    (ht : t.nullable = false) (hk : lead (w ++ r) = .kelvin) : r = [] := by
  obtain ⟨d, hd, hdgap⟩ := h.exists_not_isGap ht
  obtain ⟨g, hg, hwr⟩ := lead_eq_kelvin_iff.mp hk
  refine Decidable.byContradiction fun hr => ?_
  have hdrop := congrArg List.dropLast hwr
  rw [List.dropLast_append_of_ne_nil hr, List.dropLast_concat] at hdrop
  have hgap := hg d (hdrop ▸ List.mem_append_left _ hd)
  rw [hdgap] at hgap
  cases hgap

end Token

namespace Production

/-- The production derives the empty text, or white space only. -/
def nullable : Production → Bool
  | never => false
  | empty => true
  | token t => t.nullable
  | seq a b => a.nullable && b.nullable
  | alt a b => a.nullable || b.nullable
  | star _ => true
  | node _ a => a.nullable

/-- The leads of the texts that a production derives something from. Those that leave nothing of
the text are among them if the production may come `last`. -/
def heads (last : Bool) : Production → List Lead
  | never => []
  | empty => []
  | token t => t.first.filter fun l => l != .kelvin || last
  | seq a b => a.heads (last && b.nullable) ++ if a.nullable then b.heads last else []
  | alt a b => a.heads last ++ b.heads last
  | star a => a.heads last
  | node _ a => a.heads last

/-- All leads of the texts that a production derives something from. -/
abbrev first (a : Production) : List Lead :=
  a.heads true

/-- The leads of the texts that the production is derived from in front of one of `follow`. -/
def leads (a : Production) (follow : List Lead) : List Lead :=
  a.heads (follow.contains .stop) ++ if a.nullable then follow else []

variable {a : Production} {last last' : Bool} {l : Lead} {c n : Cursor} {xs : List Node}

/-- A production that may come last has more leads. -/
theorem heads_mono (h : last = true → last' = true) : a.heads last ⊆ a.heads last' := by
  induction a generalizing last last' with
  | never => exact List.Subset.refl _
  | empty => exact List.Subset.refl _
  | token t =>
    intro l hl
    obtain ⟨hmem, hlast⟩ := List.mem_filter.mp hl
    refine List.mem_filter.mpr ⟨hmem, ?_⟩
    rw [Bool.or_eq_true] at hlast ⊢
    exact hlast.imp_right h
  | seq a b iha ihb =>
    have hboth : (last && b.nullable) = true → (last' && b.nullable) = true := by
      rw [Bool.and_eq_true, Bool.and_eq_true]
      exact fun hl => ⟨h hl.1, hl.2⟩
    intro l hl
    rcases List.mem_append.mp hl with hl | hl
    · exact List.mem_append_left _ (iha hboth hl)
    · refine List.mem_append_right _ ?_
      by_cases hnull : a.nullable = true
      · rw [if_pos hnull] at hl ⊢
        exact ihb h hl
      · rw [if_neg hnull] at hl
        cases hl
  | alt a b iha ihb =>
    intro l hl
    rcases List.mem_append.mp hl with hl | hl
    · exact List.mem_append_left _ (iha h hl)
    · exact List.mem_append_right _ (ihb h hl)
  | star a ih => exact ih h
  | node r a ih => exact ih h

/-- What a part can begin with in some place is among what it can begin with at all. -/
theorem heads_subset_first : a.heads last ⊆ a.first :=
  heads_mono fun _ => rfl

/-- What a production derives something from goes on with something. -/
theorem stop_notMem_heads : Lead.stop ∉ a.heads last := by
  induction a generalizing last with
  | never => exact List.not_mem_nil
  | empty => exact List.not_mem_nil
  | token t => exact fun hmem => t.stop_notMem_first (List.mem_filter.mp hmem).1
  | seq a b iha ihb =>
    intro hmem
    rcases List.mem_append.mp hmem with h | h
    · exact iha h
    · split at h
      · exact ihb h
      · cases h
  | alt a b iha ihb =>
    intro hmem
    rcases List.mem_append.mp hmem with h | h
    · exact iha h
    · exact ihb h
  | star a ih => exact ih
  | node r a ih => exact ih

/-- What an alternative can begin with, the alternatives can begin with. -/
theorem first_subset_alts {as : List Production} (h : a ∈ as) : a.first ⊆ (alts as).first := by
  induction as with
  | nil => cases h
  | cons b bs ih =>
    rcases List.mem_cons.mp h with rfl | h
    · exact List.subset_append_left _ _
    · exact fun l hl => List.mem_append_right _ (ih h hl)

/-- The production comes last where nothing is left behind it. -/
def comesLast (n : Cursor) : Bool :=
  lead n.rest == .stop

private theorem heads_of_comesLast {m : Cursor} {b : Production} (h : l ∈ a.heads (comesLast m))
    (hb : lead m.rest ∈ b.heads (comesLast n) ∨
      (b.nullable = true ∧ lead m.rest = lead n.rest)) :
    l ∈ a.heads (comesLast n && b.nullable) := by
  refine heads_mono (fun hm => ?_) h
  have hstop : lead m.rest = .stop := beq_iff_eq.mp hm
  rcases hb with hmem | ⟨hnull, heq⟩
  · exact absurd (hstop ▸ hmem) stop_notMem_heads
  · rw [hnull, Bool.and_true, comesLast, ← heq, hstop]
    rfl

/-- A derivation begins with a lead of its production, or derives nothing. -/
theorem Derives.lead_or_nullable (h : Derives Token.Accepted a c xs n) :
    lead c.rest ∈ a.heads (comesLast n) ∨ (a.nullable = true ∧ lead c.rest = lead n.rest) := by
  induction h with
  | empty => exact .inr ⟨rfl, rfl⟩
  | @token t w c n hw hover =>
    have hl := hw.lead_or_nullable
    rw [← hover.rest] at hl
    refine hl.imp_left fun hmem => List.mem_filter.mpr ⟨hmem, ?_⟩
    by_cases hk : lead c.rest = .kelvin
    · rw [hover.rest] at hk
      rw [comesLast, hw.eq_nil_of_kelvin (Token.not_nullable_of_mem_first hmem) hk]
      exact Bool.or_true _
    · rw [Bool.or_eq_true]
      exact .inl (bne_iff_ne.mpr hk)
  | @seq a b _ _ _ _ _ _ _ iha ihb =>
    rcases iha with ha | ⟨hna, hea⟩
    · exact .inl (List.mem_append_left _ (heads_of_comesLast ha ihb))
    · rcases ihb with hb | ⟨hnb, heb⟩
      · left
        rw [heads, if_pos hna, hea]
        exact List.mem_append_right _ hb
      · exact .inr ⟨by rw [nullable, hna, hnb]; rfl, hea.trans heb⟩
  | left _ ih =>
    rcases ih with h | ⟨hn, he⟩
    · exact .inl (List.mem_append_left _ h)
    · exact .inr ⟨by rw [nullable, hn]; rfl, he⟩
  | right _ ih =>
    rcases ih with h | ⟨hn, he⟩
    · exact .inl (List.mem_append_right _ h)
    · exact .inr ⟨by rw [nullable, hn, Bool.or_true], he⟩
  | starNil => exact .inr ⟨rfl, rfl⟩
  | @starCons a _ _ _ _ _ _ _ iha ihs =>
    rcases iha with ha | ⟨-, hea⟩
    · have hlast := heads_of_comesLast ha ihs
      rw [nullable, Bool.and_true] at hlast
      exact .inl hlast
    · rcases ihs with hs | ⟨-, hes⟩
      · exact .inl (hea ▸ hs)
      · exact .inr ⟨rfl, hea.trans hes⟩
  | node _ ih => exact ih

/-- What is derived in front of one of the leads `follow` begins with one of `leads`. -/
theorem Derives.lead_mem {follow : List Lead} (h : Derives Token.Accepted a c xs n)
    (hn : lead n.rest ∈ follow) : lead c.rest ∈ a.leads follow := by
  rcases h.lead_or_nullable with hf | ⟨hnull, he⟩
  · refine List.mem_append_left _ (heads_mono (fun hlast => ?_) hf)
    rw [List.contains_iff_mem, ← beq_iff_eq.mp hlast]
    exact hn
  · rw [leads, if_pos hnull, he]
    exact List.mem_append_right _ hn

/-- What a part derives begins with a token that the part can begin with, unless the part can be
empty. -/
theorem Derives.lead_first (h : Derives Token.Accepted a c xs n) (ha : a.nullable = false) :
    lead c.rest ∈ a.first := by
  rcases h.lead_or_nullable with hf | ⟨hnull, -⟩
  · exact heads_subset_first hf
  · rw [hnull] at ha
    cases ha

/-- No part goes back in the text. -/
theorem Derives.length_le (h : Derives Token.Accepted a c xs n) :
    n.rest.length ≤ c.rest.length := by
  obtain ⟨w, hw⟩ := h.over
  rw [hw.rest, List.length_append]
  exact Nat.le_add_left _ _

/-- A production that is not nullable takes some text. -/
theorem Derives.length_lt (h : Derives Token.Accepted a c xs n) (ha : a.nullable = false) :
    n.rest.length < c.rest.length := by
  induction h with
  | empty => cases ha
  | token hw hover =>
    obtain ⟨d, hd, -⟩ := hw.exists_not_isGap ha
    have hpos := List.length_pos_of_mem hd
    rw [hover.rest, List.length_append]
    omega
  | seq hda hdb iha ihb =>
    rw [nullable, Bool.and_eq_false_iff] at ha
    rcases ha with ha | hb
    · exact Nat.lt_of_le_of_lt hdb.length_le (iha ha)
    · exact Nat.lt_of_lt_of_le (ihb hb) hda.length_le
  | left _ ih => exact ih (Bool.or_eq_false_iff.mp ha).1
  | right _ ih => exact ih (Bool.or_eq_false_iff.mp ha).2
  | starNil => cases ha
  | starCons _ _ _ _ => cases ha
  | node _ ih => exact ih ha

end Production

end AlterTable.Grammar
