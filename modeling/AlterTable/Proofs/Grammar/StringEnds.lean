import AlterTable.Proofs.Grammar.Columns
import AlterTable.Proofs.Grammar.Recognition
import Mathlib.Logic.ExistsUnique

/-!
# Where strings end

A string is read just where one stands that no quote follows, it is read whole, and its content is
told by the text (`string_exact`). So any content can be written, quotes, commas and semicolons
included, and there is no other way to write it. Where an opening quote has no closing one, nothing
is read.

The same holds behind `DEFAULT` and `COMMENT`, where a string is the value of an attribute. These
two words are committed to: where no string can be read behind them, the whole statement is refused.
Behind `DEFAULT` a value may also be a number or a word, neither of which begins with a quote.
-/

namespace AlterTable.Grammar

open AlterTable.Parse
open AlterTable.Parse.Parser

variable {α : Type} {c m n n' start : Cursor} {s s' g : List Char} {k : Keyword} {p : Parser Unit}

/-- From the one place to the other stands a string with this content, and no quote comes next. -/
structure StringBetween (s : List Char) (c n : Cursor) : Prop where
  written : c.Over (stringText s) n
  closed : n.rest.head? ≠ some quote

/-! ## Strings -/

private theorem StringBetween.rest_eq (h : StringBetween s c n) :
    c.rest = quote :: (escape s ++ quote :: n.rest) := by
  rw [h.written.rest, stringText]
  simp

private theorem StringBetween.closes (h : StringBetween s c n) : Closes (quote :: n.rest) :=
  .inr ⟨n.rest, rfl, h.closed⟩

/-- Only one string stands at a place. -/
theorem StringBetween.unique (h : StringBetween s c n) (h' : StringBetween s' c n') :
    s = s' ∧ n = n' := by
  have hrest := (List.cons.inj (h.rest_eq.symm.trans h'.rest_eq)).2
  obtain ⟨hcontent, hbehind⟩ := escape_append_inj hrest h.closes h'.closes
  exact ⟨hcontent, h.written.eq_of_rest h'.written (List.cons.inj hbehind).2⟩

/-- What is written between two places as a string is read as one. -/
theorem string_done (h : StringBetween s c n) : string c = .done () n :=
  string_eq_done_iff.mpr ⟨s, h.written, h.closed⟩

/-- What is read as a string is written as one. -/
theorem exists_stringBetween (h : string c = .done () n) : ∃ s, StringBetween s c n := by
  obtain ⟨s, hover, hclosed⟩ := string_eq_done_iff.mp h
  exact ⟨s, hover, hclosed⟩

/-- A string is refused just where none is written. -/
theorem exists_refused_string_iff :
    (∃ t, string c = .refused t) ↔ ¬ ∃ s n, StringBetween s c n := by
  constructor
  · rintro ⟨t, ht⟩ ⟨s, n, h⟩
    rw [string_done h] at ht
    cases ht
  · intro h
    apply exists_refused _ string_ne_fatal
    intro _ n hdone
    obtain ⟨s, hs⟩ := exists_stringBetween hdone
    exact h ⟨s, n, hs⟩

/-! ## Values -/

private theorem literal_done (hg : Gap g) (hover : m.Over g c) (h : string c = .done () n) :
    literal m = .done () n := by
  obtain ⟨s, hs⟩ := exists_stringBetween h
  have hc : c.rest.head?.any isGap = false := by
    rw [hs.rest_eq]
    rfl
  rw [literal, gap_bind hg hover hc]
  exact choiceAfter_of_done h _

/-- A value that begins with a quote is neither a number nor a word. -/
theorem literal_refused (hg : Gap g) (hover : m.Over g c) (hquote : c.rest.head? = some quote)
    (h : ∃ t, string c = .refused t) : ∃ t, literal m = .refused t := by
  obtain ⟨r, hr⟩ := List.head?_eq_some_iff.mp hquote
  obtain ⟨t, ht⟩ := h
  obtain ⟨t', ht'⟩ := number_refused hr (by decide) (by decide)
  have hword : ∃ t, (do let _ ← bareWord : Parser Unit) c = .refused t := by
    refine ⟨[⟨c, .run⟩], ?_⟩
    have hnone : runWidth? isIdentifierChar c.rest = none := by
      rw [hr]
      rfl
    rw [bind_apply, bareWord, lexeme, hnone]
  obtain ⟨t'', ht''⟩ := hword
  rw [literal, gap_bind hg hover (by rw [hr]; rfl), choice, choiceAfter_of_refused ht,
    choiceAfter_of_refused ht', choiceAfter_of_refused ht'']
  exact ⟨_, rfl⟩

/-! ## Attributes -/

/-- Of alternatives without a common lead, the one that has the lead of the text decides, unless it
is refused. -/
theorem choice_eq_of_lead [HasTrees α] {l : List (Parser α × Production)}
    {x : Parser α × Production} {follow : List Lead}
    (halternatives : ∀ x ∈ l, Alternative x.1 x.2 follow)
    (hdisjoint : (l.map Prod.snd).Pairwise fun a b => ∀ lead ∈ b.first, lead ∉ a.first)
    (hx : x ∈ l) (hlead : lead c.rest ∈ x.2.first) (hx' : ∀ t, x.1 c ≠ .refused t) :
    choice (l.map Prod.fst) c = x.1 c := by
  have hafter : ∀ last, choiceAfter last (l.map Prod.fst) c = x.1 c := by
    induction l with
    | nil => exact absurd hx List.not_mem_nil
    | cons y l ih =>
      intro last
      rcases List.mem_cons.mp hx with rfl | hx
      · rw [List.map_cons, choiceAfter]
        split
        next t ht => exact absurd ht (hx' t)
        next => rfl
      · obtain ⟨hfirst, hrest⟩ := List.pairwise_cons.mp hdisjoint
        have hother := hfirst x.2 (List.mem_map_of_mem hx) _ hlead
        obtain ⟨t, ht⟩ := (halternatives y List.mem_cons_self).refuses hother
        rw [List.map_cons, choiceAfter_of_refused ht]
        exact ih (fun z hz => halternatives z (List.mem_cons_of_mem _ hz)) hrest hx t
  exact hafter []

/-- The words in front of a value, each with the parser of the value. -/
def valued : List (Keyword × Parser Unit) :=
  [(.default, literal), (.comment, do gap; string)]

/-- The attribute that the word begins. -/
def valueAttribute (x : Keyword × Parser Unit) : Parser Node :=
  leaf .columnAttribute (do keyword x.1; commit x.2)

private theorem valueAttribute_done (hk : k.Between start m) (h : p m = .done () n) :
    valueAttribute (k, p) start = .done (span .columnAttribute start n []) n := by
  rw [valueAttribute, leaf, node, bind_apply, bind_apply, keyword_eq_done_iff.mpr (.inl hk)]
  simp only [commit, h, pure_apply]

private theorem valueAttribute_fatal (hk : k.Between start m) (h : ∃ t, p m = .refused t) :
    ∃ t, valueAttribute (k, p) start = .fatal t := by
  obtain ⟨t, ht⟩ := h
  refine ⟨t, ?_⟩
  rw [valueAttribute, leaf, node, bind_apply, bind_apply, keyword_eq_done_iff.mpr (.inl hk)]
  simp only [commit, ht]

/-- Each of the words begins an attribute. -/
theorem exists_valueAttribute_mem {x : Keyword × Parser Unit} (hx : x ∈ valued) :
    ∃ a, (valueAttribute x, a) ∈ attributes ∧ Lead.keyword x.1 ∈ a.first := by
  simp only [valued, List.mem_cons, List.not_mem_nil, or_false] at hx
  rcases hx with rfl | rfl
  · exact ⟨.leaf .columnAttribute (.seq (.keyword .default) (.token .literal)),
      by simp [attributes, valueAttribute, defaultAttribute], by decide⟩
  · exact ⟨.leaf .columnAttribute (.seq (.keyword .comment) (.token .string)),
      by simp [attributes, valueAttribute, commentAttribute], by decide⟩

/-- Behind one of the words, the attribute is the one that the word begins. -/
theorem columnAttribute_eq {x : Keyword × Parser Unit} (hx : x ∈ valued)
    (hk : x.1.Between start m) (hvalue : ∀ t, valueAttribute x start ≠ .refused t) :
    columnAttribute start = valueAttribute x start := by
  obtain ⟨a, ha, hlead⟩ := exists_valueAttribute_mem hx
  rw [← hk.lead_eq] at hlead
  exact choice_eq_of_lead (fun _ => alternative_of_mem_attributes) disjoint_attributes ha hlead
    hvalue

/-- The keyword stands at the one place, and the other one lies behind it and white space. -/
def Keyword.InFrontOf (k : Keyword) (start c : Cursor) : Prop :=
  ∃ m g, k.Between start m ∧ Gap g ∧ m.Over g c

/-- An attribute is read up to the end of its value, and where there is no value it is fatal. -/
theorem columnAttribute_valued (hp : (k, p) ∈ valued) (hk : k.Between start m) :
    (∀ n, p m = .done () n →
      columnAttribute start = .done (span .columnAttribute start n []) n) ∧
    ((∃ t, p m = .refused t) → ∃ t, columnAttribute start = .fatal t) := by
  constructor
  · intro n hn
    have hdone := valueAttribute_done hk hn
    rw [columnAttribute_eq hp hk (by simp [hdone]), hdone]
  · intro hrefused
    obtain ⟨t, ht⟩ := valueAttribute_fatal hk hrefused
    rw [columnAttribute_eq hp hk (by simp [ht])]
    exact ⟨t, ht⟩

/-- A string behind one of the words is read whole as the value. -/
theorem columnAttribute_done (hk : k ∈ [Keyword.default, .comment]) (hfront : k.InFrontOf start c)
    (h : StringBetween s c n) :
    columnAttribute start = .done (span .columnAttribute start n []) n := by
  obtain ⟨m, g, hbetween, hg, hover⟩ := hfront
  have hdone := string_done h
  simp only [List.mem_cons, List.not_mem_nil, or_false] at hk
  rcases hk with rfl | rfl
  · exact (columnAttribute_valued (by simp [valued]) hbetween).1 n (literal_done hg hover hdone)
  · refine (columnAttribute_valued (p := do gap; string) (by simp [valued]) hbetween).1 n ?_
    rw [gap_bind hg hover (by rw [h.rest_eq]; rfl), hdone]

/-- Where a string has to stand behind one of the words and none does, the word is fatal. -/
theorem columnAttribute_fatal (hk : k ∈ [Keyword.default, .comment])
    (hfront : k.InFrontOf start c)
    (hneeds : c.rest.head? = some quote ∨ (k = .comment ∧ c.rest.head?.any isGap = false))
    (hno : ¬ ∃ s n, StringBetween s c n) : ∃ t, columnAttribute start = .fatal t := by
  obtain ⟨m, g, hbetween, hg, hover⟩ := hfront
  have hrefused := exists_refused_string_iff.mpr hno
  simp only [List.mem_cons, List.not_mem_nil, or_false] at hk
  rcases hk with rfl | rfl
  · have hquote : c.rest.head? = some quote := hneeds.resolve_right (by simp)
    exact (columnAttribute_valued (by simp [valued]) hbetween).2
      (literal_refused hg hover hquote hrefused)
  · have hc : c.rest.head?.any isGap = false := by
      rcases hneeds with hquote | ⟨-, hgap⟩
      · rw [hquote]
        rfl
      · exact hgap
    refine (columnAttribute_valued (p := do gap; string) (by simp [valued]) hbetween).2 ?_
    rwa [gap_bind hg hover hc]

/-! ## Exactness -/

/-- A string is read just where the text goes on with one that no quote follows, up to its end, and
its content is determined; where there is no such string none is read. So every content is read
whole behind `DEFAULT` and `COMMENT`, and what opens a string there and does not end it is fatal. -/
theorem string_exact (c : Cursor) :
    (∀ l n, (string c = .done () n ∧ c.upTo n = l) ↔
        ∃! s, l = stringText s ∧ StringBetween s c n) ∧
      (∀ s s' n n', StringBetween s c n → StringBetween s' c n' → s = s' ∧ n = n') ∧
      ((∃ t, string c = .refused t) ↔ ¬ ∃ s n, StringBetween s c n) ∧
      ∀ k ∈ [Keyword.default, .comment], ∀ start, k.InFrontOf start c →
        (∀ s n, StringBetween s c n →
          columnAttribute start = .done (span .columnAttribute start n []) n) ∧
        ((c.rest.head? = some quote ∨ (k = .comment ∧ c.rest.head?.any isGap = false)) →
          (¬ ∃ s n, StringBetween s c n) → ∃ t, columnAttribute start = .fatal t) := by
  refine ⟨?_, fun s s' n n' => StringBetween.unique, exists_refused_string_iff, ?_⟩
  · intro l n
    constructor
    · rintro ⟨hdone, rfl⟩
      obtain ⟨s, hs⟩ := exists_stringBetween hdone
      exact ⟨s, ⟨hs.written.upTo_eq, hs⟩, fun s' hs' => (hs'.2.unique hs).1⟩
    · rintro ⟨s, ⟨rfl, hs⟩, -⟩
      exact ⟨string_done hs, hs.written.upTo_eq⟩
  · intro k hk start hfront
    exact ⟨fun s n => columnAttribute_done hk hfront, columnAttribute_fatal hk hfront⟩

/-- Quotes, a comma, a parenthesis and a semicolon in a comment. -/
theorem string_exact_punctuated :
    Keyword.comment.InFrontOf (.ofText "comment 'a, ''b'');' NULL".toList)
        ⟨8, "'a, ''b'');' NULL".toList⟩ ∧
      StringBetween "a, 'b');".toList ⟨8, "'a, ''b'');' NULL".toList⟩ ⟨20, " NULL".toList⟩ ∧
      ∃ t, columnAttribute (.ofText "comment 'a, ''b'');' NULL".toList) =
        .done t ⟨20, " NULL".toList⟩ := by
  have hfront : Keyword.comment.InFrontOf (.ofText "comment 'a, ''b'');' NULL".toList)
      ⟨8, "'a, ''b'');' NULL".toList⟩ :=
    ⟨⟨7, " 'a, ''b'');' NULL".toList⟩, [' '],
      ⟨[], "comment".toList, ⟨rfl, rfl⟩, gap_nil, rfl, rfl⟩, gap_blank, rfl, rfl⟩
  have hstring : StringBetween "a, 'b');".toList ⟨8, "'a, ''b'');' NULL".toList⟩
      ⟨20, " NULL".toList⟩ := ⟨⟨rfl, rfl⟩, by decide⟩
  exact ⟨hfront, hstring, _,
    ((string_exact _).2.2.2 .comment (by simp) _ hfront).1 _ _ hstring⟩

end AlterTable.Grammar
