import AlterTable.Grammar.Token

/-!
# How tokens are spelled

The tokens of the grammar as sets of texts, said without any parser. `Token.Spelled t w r` holds
where `w` is a way to write the token `t` in front of the text `r`: white space first, unless the
token is the dot of a qualified name, and then the token itself. Only words ask something of what
follows them: a keyword, an unquoted name and a literal that is a word end where no identifier
character comes next. Numbers and strings end wherever they may.

Reading differs in one text only, a Kelvin sign that is the last character of all. It is a name, and
it is taken for the keyword `KEY`: `Token.Read` has the spellings that are read, `Token.Accepted`
these and those of the grammar, and `Token.Plain` the ones that both have.
-/

namespace AlterTable.Grammar

/-! ## Parts of tokens -/

/-- White space between tokens, of which there may be none. -/
def Gap (g : List Char) : Prop :=
  ∀ c ∈ g, isGap c = true

instance (g : List Char) : Decidable (Gap g) :=
  List.decidableBAll (isGap · = true) g

/-- There may be no white space at all. -/
theorem gap_nil : Gap [] :=
  fun _ h => absurd h List.not_mem_nil

/-- One blank is white space between tokens. -/
theorem gap_blank : Gap [' '] :=
  List.forall_mem_singleton.mpr rfl

/-- White space behind white space is white space. -/
theorem Gap.append {g g' : List Char} (h : Gap g) (h' : Gap g') : Gap (g ++ g') :=
  List.forall_mem_append.mpr ⟨h, h'⟩

/-- White space of the grammar is white space of any text. -/
theorem Gap.isWhiteSpace {g : List Char} (h : Gap g) : ∀ d ∈ g, Text.isWhiteSpace d = true := by
  intro d hd
  have hgap := h d hd
  simp only [isGap, Bool.or_eq_true, beq_iff_eq] at hgap
  rcases hgap with ((rfl | rfl) | rfl) | rfl <;> decide

/-- What is no white space is in no gap. -/
theorem Gap.notMem {g : List Char} {d : Char} (h : Gap g) (hd : isGap d = false) : d ∉ g := by
  intro hmem
  rw [h d hmem] at hd
  cases hd

/-- The text does not go on with an identifier character. -/
def Ends (r : List Char) : Prop :=
  r.head?.any isIdentifierChar = false

/-- One or more identifier characters. -/
def IsWord (w : List Char) : Prop :=
  w ≠ [] ∧ ∀ c ∈ w, isIdentifierChar c = true

instance (w : List Char) : Decidable (IsWord w) :=
  decidable_of_iff (w ≠ [] ∧ w.all isIdentifierChar = true) (and_congr_right fun _ =>
    List.all_eq_true)

/-- One or more decimal digits. -/
def IsDigits (w : List Char) : Prop :=
  w ≠ [] ∧ ∀ c ∈ w, c.isDigit = true

/-- A name between back-quotes. -/
def IsQuotedName (w : List Char) : Prop :=
  ∃ q, q ≠ [] ∧ Text.backQuote ∉ q ∧ w = Text.backQuote :: (q ++ [Text.backQuote])

/-- A decimal number, perhaps with a minus sign before it and a fraction behind it. -/
def IsNumber (w : List Char) : Prop :=
  ∃ sign whole fraction, w = sign ++ whole ++ fraction ∧ (sign = [] ∨ sign = ['-']) ∧
    IsDigits whole ∧ (fraction = [] ∨ ∃ d, IsDigits d ∧ fraction = '.' :: d)

/-- The content of a string as it is written: each quote twice. -/
def escape (s : List Char) : List Char :=
  s.flatMap fun c => if c = quote then [quote, quote] else [c]

/-- A string between quotes. -/
def stringText (s : List Char) : List Char :=
  quote :: (escape s ++ [quote])

/-! ## Tokens -/

/-- A punctuation mark. -/
inductive Mark where
  | openParen
  | closeParen
  | comma
  | semicolon
deriving DecidableEq, Repr, Inhabited

/-- The character of the mark. -/
def Mark.char : Mark → Char
  | openParen => '('
  | closeParen => ')'
  | comma => ','
  | semicolon => ';'

/-- What statements are written with. -/
inductive Token where
  | keyword (k : Keyword)
  | mark (m : Mark)
  /-- The dot of a qualified name, which no white space precedes. -/
  | dot
  | identifier
  | digits
  | string
  | literal
  /-- White space, as much as there is. -/
  | space
  /-- The end of the text. -/
  | stop
deriving DecidableEq, Repr, Inhabited

/-- The text `w` writes the token where `r` follows. -/
inductive Token.Spelled : Token → List Char → List Char → Prop
  | keyword {k g w r} : Gap g → Text.lower w = k.letters → Ends r →
      Spelled (.keyword k) (g ++ w) r
  | mark {m g r} : Gap g → Spelled (.mark m) (g ++ [m.char]) r
  | dot {r} : Spelled .dot ['.'] r
  | quotedName {g w r} : Gap g → IsQuotedName w → Spelled .identifier (g ++ w) r
  | bareName {g w r} : Gap g → IsWord w → Keyword.reserves w = false → Ends r →
      Spelled .identifier (g ++ w) r
  | digits {g w r} : Gap g → IsDigits w → Spelled .digits (g ++ w) r
  | string {g s r} : Gap g → Spelled .string (g ++ stringText s) r
  | stringLiteral {g s r} : Gap g → Spelled .literal (g ++ stringText s) r
  | numberLiteral {g w r} : Gap g → IsNumber w → Spelled .literal (g ++ w) r
  | wordLiteral {g w r} : Gap g → IsWord w → w.head?.any Char.isDigit = false → Ends r →
      Spelled .literal (g ++ w) r
  | space {g r} : Gap g → r.head?.any isGap = false → Spelled .space g r
  | stop : Spelled .stop [] []

/-- The token of white space is all the white space that stands there. -/
theorem Token.spelled_space {g r : List Char} :
    Token.Spelled .space g r ↔ Gap g ∧ r.head?.any isGap = false := by
  constructor
  · intro h
    cases h with
    | space hg hr => exact ⟨hg, hr⟩
  · rintro ⟨hg, hr⟩
    exact .space hg hr

/-- The token of the end stands only where nothing is left. -/
theorem Token.spelled_stop {w r : List Char} : Token.Spelled .stop w r ↔ w = [] ∧ r = [] := by
  constructor
  · intro h
    cases h
    exact ⟨rfl, rfl⟩
  · rintro ⟨rfl, rfl⟩
    exact .stop

/-- More white space may be put before a token, unless none may stand there. -/
theorem Token.Spelled.behind {t : Token} {g w r : List Char} (hg : Gap g) (h : t.Spelled w r)
    (ht : t ≠ .dot ∧ t ≠ .stop) : t.Spelled (g ++ w) r := by
  have assoc : ∀ {t u v}, Spelled t (g ++ u ++ v) r → Spelled t (g ++ (u ++ v)) r := by
    intro t u v h
    rwa [← List.append_assoc]
  cases h with
  | keyword hg' hw hr => exact assoc (.keyword (hg.append hg') hw hr)
  | mark hg' => exact assoc (.mark (hg.append hg'))
  | dot => exact absurd rfl ht.1
  | quotedName hg' hw => exact assoc (.quotedName (hg.append hg') hw)
  | bareName hg' hw hfree hr => exact assoc (.bareName (hg.append hg') hw hfree hr)
  | digits hg' hw => exact assoc (.digits (hg.append hg') hw)
  | string hg' => exact assoc (.string (hg.append hg'))
  | stringLiteral hg' => exact assoc (.stringLiteral (hg.append hg'))
  | numberLiteral hg' hw => exact assoc (.numberLiteral (hg.append hg') hw)
  | wordLiteral hg' hw hd hr => exact assoc (.wordLiteral (hg.append hg') hw hd hr)
  | space hg' hr => exact .space (hg.append hg') hr
  | stop => exact absurd rfl ht.2

/-! ## Kelvin signs -/

/-- White space and a Kelvin sign. -/
def IsLoneSign (w : List Char) : Prop :=
  ∃ g, Gap g ∧ w = g ++ [kelvinSign]

/-- The text writes the token or, at the very end, a lone Kelvin sign stands for `KEY`. -/
def Token.Accepted (t : Token) (w r : List Char) : Prop :=
  t.Spelled w r ∨ (t = .keyword .key ∧ r = [] ∧ IsLoneSign w)

/-- The text is read as the token. A lone Kelvin sign behind `DROP` is always taken for `KEY`, and
nothing follows it. -/
def Token.Read (t : Token) (w r : List Char) : Prop :=
  t.Accepted w r ∧ (t = .keyword .drop → ¬ IsLoneSign r)

/-- The text writes the token and is read as it. -/
def Token.Plain (t : Token) (w r : List Char) : Prop :=
  t.Spelled w r ∧ t.Read w r

variable {t : Token} {w r : List Char}

/-- What spells a token is accepted as the token. -/
theorem Token.Spelled.accepted (h : t.Spelled w r) : t.Accepted w r :=
  .inl h

/-- Only for the keyword `KEY` is more accepted than what spells it. -/
theorem Token.Accepted.spelled (h : t.Accepted w r) (ht : t ≠ .keyword .key) : t.Spelled w r :=
  h.resolve_right fun hkey => ht hkey.1

/-- Only for the keyword `KEY` is more read than what spells it. -/
theorem Token.Read.spelled (h : t.Read w r) (ht : t ≠ .keyword .key) : t.Spelled w r :=
  h.1.spelled ht

/-- The text ends with the keyword, white space and a Kelvin sign. -/
def KelvinAfter (k : Keyword) (s : List Char) : Prop :=
  ∃ u w g, s = u ++ (w ++ (g ++ [kelvinSign])) ∧ Text.lower w = k.letters ∧ Gap g ∧ g ≠ []

/-- A text with a Kelvin sign behind a last keyword ends with the sign. -/
theorem KelvinAfter.getLast?_eq {k : Keyword} {s : List Char} (h : KelvinAfter k s) :
    s.getLast? = some kelvinSign := by
  obtain ⟨u, w, g, rfl, -⟩ := h
  rw [← List.append_assoc, ← List.append_assoc, List.getLast?_concat]

/-- A keyword in front of a lone Kelvin sign. -/
theorem Token.Spelled.kelvinAfter {k : Keyword} (h : Token.Spelled (.keyword k) w r)
    (hr : IsLoneSign r) (u : List Char) : KelvinAfter k (u ++ (w ++ r)) := by
  obtain ⟨g, hg, rfl⟩ := hr
  cases h with
  | @keyword _ g' w' _ _ hlower hends =>
    refine ⟨u ++ g', w', g, by simp, hlower, hg, ?_⟩
    rintro rfl
    revert hends
    unfold Ends
    decide

end AlterTable.Grammar
