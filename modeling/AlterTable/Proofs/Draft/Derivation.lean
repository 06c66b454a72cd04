import AlterTable.Proofs.Draft.Alteration
import AlterTable.Proofs.Grammar.Rules
import AlterTable.Proofs.Text
import Mathlib.Data.List.Forall2

/-!
# Drafts are derived

Whatever renders a draft is derived by the grammar, with a tree that says what the draft says. The
predicates on nodes (`IsName`, `IsDefinition`, `IsAlteration`) list what a reader needs to know of
the tree of each part.
-/

namespace AlterTable.Draft

open AlterTable.Grammar
open AlterTable.Grammar.Production
open AlterTable.Parse

variable {c m n : Cursor} {marks : List Nat} {g w : List Char} {r : Rule} {xs ys : List Node}
variable {ls : List Lexeme} {k : Keyword} {a b : Production}

private theorem derives_cast (h : Derives Token.Spelled a c xs n) (hxs : xs = ys) :
    Derives Token.Spelled a c ys n :=
  hxs ▸ h

/-! ## Nodes and their texts -/

/-- The text begins with a character that is no white space. -/
def IsTight (w : List Char) : Prop :=
  w.head?.any Text.isWhiteSpace = false

/-- An ASCII word does not begin with white space. -/
theorem isTight_of_isWord (h : IsWord w) (ha : ∀ d ∈ w, d.toNat < 128) (v : List Char) :
    IsTight (w ++ v) := by
  obtain ⟨hne, hall⟩ := h
  obtain ⟨d, w, rfl⟩ := List.exists_cons_of_ne_nil hne
  exact not_isWhiteSpace_of_isIdentifierChar (hall d List.mem_cons_self) (ha d List.mem_cons_self)

/-- A firm text is trimmed of the white space before it only. -/
theorem trim_gap_append (hg : Gap g) (hw : IsTight w) (hfirm : IsFirm w) :
    Text.trim (g ++ w) = w := by
  rw [Text.trim_append hg.isWhiteSpace, Text.trim_eq_self_iff]
  constructor
  · intro d hd
    rwa [IsTight, hd] at hw
  · intro d hd
    rw [IsFirm, hd] at hfirm
    simpa using (Bool.and_eq_true_iff.mp hfirm).2

/-- A node for a text behind white space starts behind it. -/
theorem start_span (hg : Gap g) (hw : IsTight w) (h : c.Over (g ++ w) n) :
    (span r c n xs).start = c.offset + Text.byteLength g := by
  have hgap : (g ++ w).takeWhile Text.isWhiteSpace = g :=
    takeWhile_append_of_all hg.isWhiteSpace hw
  show c.offset + Text.byteLength ((c.upTo n).takeWhile Text.isWhiteSpace) = _
  rw [h.upTo_eq, hgap]

/-- The text of a node for a firm text behind white space. -/
theorem text_span (hg : Gap g) (hw : IsTight w) (hfirm : IsFirm w) (h : c.Over (g ++ w) n) :
    (span r c n xs).text = String.ofList w := by
  show String.ofList (Text.trim (c.upTo n)) = _
  rw [h.upTo_eq, trim_gap_append hg hw hfirm]

/-- The node of a name. -/
structure IsName (r : Rule) (name : Name) (t : Node) : Prop where
  rule : t.rule = r
  exactText : t.exactText = name.value
  children : t.children = []

/-! ## Single lexemes -/

/-- A word that ends is not continued by what follows it. -/
theorem ends_of_apart (hw : IsWord w)
    (h : w.getLast?.any isIdentifierChar = true → Ends n.rest) : Ends n.rest := by
  refine h ?_
  rw [List.getLast?_eq_some_getLast hw.1]
  exact hw.2 _ (List.getLast_mem hw.1)

/-- A keyword is derived from its word. -/
theorem derives_word (h : Lays [.word k] c marks n) :
    (Production.keyword k).Derives Token.Spelled c [] n := by
  obtain ⟨g, w, -, hg, hw, hover, hapart⟩ := lays_singleton.mp h
  exact .token (.keyword hg hw (ends_of_apart (Keyword.isWord_of_lower hw) hapart)) hover

/-- Only two words begin a position. -/
theorem lays_word (hk : k ≠ .first ∧ k ≠ .after) (h : Lays [.word k] c marks n) :
    (Production.keyword k).Derives Token.Spelled c [] n ∧ marks = [] := by
  refine ⟨derives_word h, ?_⟩
  obtain ⟨g, w, rfl, -⟩ := lays_singleton.mp h
  obtain ⟨hfirst, hafter⟩ := hk
  cases k <;> first | rfl | exact absurd rfl hfirst | exact absurd rfl hafter

/-- Keywords that begin no position are derived without nodes and marks. -/
theorem lays_words (ks : List Keyword) (hks : ∀ k ∈ ks, k ≠ .first ∧ k ≠ .after)
    (h : Lays (ks.map .word) c marks n) :
    (Production.keywords ks).Derives Token.Spelled c [] n ∧ marks = [] := by
  induction ks generalizing c marks with
  | nil =>
    obtain ⟨rfl, rfl⟩ := lays_nil.mp h
    exact ⟨.empty, rfl⟩
  | cons k ks ih =>
    obtain ⟨m, ms, ms', rfl, h₁, h₂⟩ := lays_cons.mp h
    obtain ⟨hd, rfl⟩ := lays_word (hks k List.mem_cons_self) h₁
    obtain ⟨hd', rfl⟩ := ih (fun k' hk' => hks k' (List.mem_cons_of_mem _ hk')) h₂
    exact ⟨.seq hd hd', rfl⟩

/-- A mark is derived without nodes and marks of places. -/
theorem lays_mark {p : Mark} (h : Lays [.mark p] c marks n) :
    (Production.mark p).Derives Token.Spelled c [] n ∧ marks = [] := by
  obtain ⟨g, w, rfl, hg, rfl, hover, -⟩ := lays_singleton.mp h
  exact ⟨.token (.mark hg) hover, rfl⟩

/-- A dot is derived without nodes and marks. -/
theorem lays_dot (h : Lays [.dot] c marks n) :
    (Production.token .dot).Derives Token.Spelled c [] n ∧ marks = [] := by
  obtain ⟨g, w, rfl, rfl, rfl, hover, -⟩ := lays_singleton.mp h
  exact ⟨.token .dot hover, rfl⟩

/-- A keyword that may be missing is derived without nodes and marks. -/
theorem lays_optional (hk : k ≠ .first ∧ k ≠ .after) (h : Optional k ls)
    (hl : Lays ls c marks n) :
    (Production.option (.keyword k)).Derives Token.Spelled c [] n ∧ marks = [] := by
  cases h with
  | absent =>
    obtain ⟨rfl, rfl⟩ := lays_nil.mp hl
    exact ⟨.right .empty, rfl⟩
  | present =>
    obtain ⟨hd, rfl⟩ := lays_word hk hl
    exact ⟨.left hd, rfl⟩

/-- A name between quotes is derived, with a node that gives it back. -/
theorem lays_name {name : Name} (h : Lays [name.lexeme] c marks n) (r : Rule) :
    marks = [] ∧ ∃ t, (Production.name r).Derives Token.Spelled c [t] n ∧ IsName r name t := by
  obtain ⟨g, w, rfl, hg, rfl, hover, -⟩ := lays_singleton.mp h
  have hname : Token.Spelled .identifier (g ++ Text.backQuote :: (name.text ++ [Text.backQuote]))
      n.rest := .quotedName hg ⟨name.text, name.ne_nil, name.plain, rfl⟩
  refine ⟨rfl, _, .node (.seq (.token hname hover) .empty), rfl, ?_, rfl⟩
  have htight : IsTight (Text.backQuote :: (name.text ++ [Text.backQuote])) := rfl
  rw [Node.exactText, text_span hg htight (isFirm_quoted name.text) hover,
    String.toList_ofList, Text.unquote_quoted]
  rfl

/-! ## Lists -/

/-- What is said of several things is said of each of them. -/
inductive Gathers {α : Type} (P : α → List Nat → List Node → Prop) :
    List α → List Nat → List Node → Prop
  | nil : Gathers P [] [] []
  | cons {x xs marks marks' ts ts'} : P x marks ts → Gathers P xs marks' ts' →
      Gathers P (x :: xs) (marks ++ marks') (ts ++ ts')

section

variable {α : Type} {R : α → List Lexeme → Prop} {P : α → List Nat → List Node → Prop}

/-- What the lexemes of a thing are derived with. -/
def DerivedBy (a : Production) (P : α → List Nat → List Node → Prop) (x : α)
    (ls : List Lexeme) : Prop :=
  ∀ {c marks n}, Lays ls c marks n → ∃ ts, a.Derives Token.Spelled c ts n ∧ P x marks ts

/-- What derives every element derives them one behind the other. -/
theorem derives_each (hR : ∀ {x ls}, R x ls → DerivedBy a P x ls) {xs : List α}
    (h : Each R xs ls) : DerivedBy (.star a) (Gathers P) xs ls := by
  induction h with
  | nil =>
    intro c marks n hl
    obtain ⟨rfl, rfl⟩ := lays_nil.mp hl
    exact ⟨[], .starNil, .nil⟩
  | cons hx _ ih =>
    intro c marks n hl
    obtain ⟨m, ms, ms', rfl, h₁, h₂⟩ := lays_append.mp hl
    obtain ⟨ts, hd, hP⟩ := hR hx h₁
    obtain ⟨ts', hd', hP'⟩ := ih h₂
    exact ⟨ts ++ ts', .starCons hd hd', .cons hP hP'⟩

/-- What derives every element derives the list of them. -/
theorem derives_listed (hR : ∀ {x ls}, R x ls → DerivedBy a P x ls) {s : Several α}
    (h : Listed R s ls) : DerivedBy (.list a) (Gathers P) s.toList ls := by
  obtain ⟨ls₁, ls₂, rfl, hfirst, hothers⟩ := h
  intro c marks n hl
  obtain ⟨m, ms, ms', rfl, h₁, h₂⟩ := lays_append.mp hl
  have hcomma : ∀ {x ls}, (∃ ls', ls = .mark .comma :: ls' ∧ R x ls') →
      DerivedBy (.seq (.mark .comma) a) P x ls := by
    rintro x _ ⟨ls', rfl, hx⟩ c marks n hl
    obtain ⟨m, ms, ms', rfl, h₁, h₂⟩ := lays_cons.mp hl
    obtain ⟨hd, rfl⟩ := lays_mark h₁
    obtain ⟨ts, hd', hP⟩ := hR hx h₂
    exact ⟨ts, .seq hd hd', hP⟩
  obtain ⟨ts, hd, hP⟩ := hR hfirst h₁
  obtain ⟨ts', hd', hP'⟩ := derives_each hcomma hothers h₂
  refine ⟨ts ++ ts', derives_cast (.seq hd (.seq hd' .empty)) ?_, .cons hP hP'⟩
  rw [List.append_nil]

/-- What derives every element derives the list of them in parentheses. -/
theorem derives_parenthesised (hR : ∀ {x ls}, R x ls → DerivedBy a P x ls) {s : Several α}
    (h : Parenthesised R s ls) : DerivedBy (.parens (.list a)) (Gathers P) s.toList ls := by
  obtain ⟨ls', rfl, hlisted⟩ := h
  intro c marks n hl
  obtain ⟨m, ms, ms', rfl, h₁, h₂⟩ := lays_cons.mp hl
  obtain ⟨m', ms, ms', rfl, h₂, h₃⟩ := lays_append.mp h₂
  obtain ⟨hopen, rfl⟩ := lays_mark h₁
  obtain ⟨ts, hd, hP⟩ := derives_listed hR hlisted h₂
  obtain ⟨hclose, rfl⟩ := lays_mark h₃
  rw [List.nil_append, List.append_nil]
  refine ⟨ts, derives_cast (.seq hopen (.seq hd (.seq hclose .empty))) ?_, hP⟩
  simp

/-- Things of which each has no position and one node. -/
theorem Gathers.forall₂ {Q : α → Node → Prop} {xs : List α} {ts : List Node}
    (h : Gathers P xs marks ts) (hP : ∀ {x ms ts}, P x ms ts → ms = [] ∧ ∃ t, ts = [t] ∧ Q x t) :
    marks = [] ∧ List.Forall₂ Q xs ts := by
  induction h with
  | nil => exact ⟨rfl, .nil⟩
  | cons hx _ ih =>
    obtain ⟨rfl, t, rfl, hQ⟩ := hP hx
    obtain ⟨rfl, hrest⟩ := ih
    exact ⟨rfl, .cons hQ hrest⟩

/-- Things of which none has a position or a node. -/
theorem Gathers.eq_nil {xs : List α} {ts : List Node} (h : Gathers P xs marks ts)
    (hP : ∀ {x ms ts}, P x ms ts → ms = [] ∧ ts = []) : marks = [] ∧ ts = [] := by
  induction h with
  | nil => exact ⟨rfl, rfl⟩
  | cons hx _ ih =>
    obtain ⟨rfl, rfl⟩ := hP hx
    obtain ⟨rfl, rfl⟩ := ih
    exact ⟨rfl, rfl⟩

end

/-! ## Numbers and types -/

/-- Digits are derived without nodes. -/
theorem derivedBy_digits {d : Digits} (h : d.Written ls) :
    DerivedBy (.token .digits) (fun _ marks ts => marks = [] ∧ ts = []) d ls := by
  intro c marks n hl
  obtain rfl : ls = _ := h
  obtain ⟨g, w, rfl, hg, rfl, hover, -⟩ := lays_singleton.mp hl
  exact ⟨[], .token (.digits hg d.isDigits) hover, rfl, rfl⟩

/-- The numbers of a type are derived without nodes. -/
theorem derives_numbers {numbers : Option (Several Digits)} (h : NumbersWritten numbers ls)
    (hl : Lays ls c marks n) :
    marks = [] ∧ (Production.option .numbers).Derives Token.Spelled c [] n := by
  cases h with
  | absent =>
    obtain ⟨rfl, rfl⟩ := lays_nil.mp hl
    exact ⟨rfl, .right .empty⟩
  | present hds =>
    obtain ⟨ts, hd, hts⟩ := derives_parenthesised derivedBy_digits hds hl
    obtain ⟨rfl, rfl⟩ := hts.eq_nil id
    exact ⟨rfl, .left (.seq hd .empty)⟩

/-- A layout over all of a text is one wherever the text stands, if what it ends with ends there
as well. -/
theorem Lays.transfer (h : Lays ls c marks n) (hn : n.rest = []) {c' n' : Cursor}
    (hover' : c'.Over c.rest n')
    (hend : c.rest.getLast?.any isIdentifierChar = true → Ends n'.rest) :
    ∃ marks', Lays ls c' marks' n' := by
  induction h generalizing c' with
  | nil =>
    rw [hn] at hover'
    exact ⟨[], lays_nil.mpr ⟨rfl, hover'.eq_of_rest (.refl c') hover'.rest.symm⟩⟩
  | @cons l ls g w c m n marks hg hw hover hapart _ ih =>
    rw [hover.rest] at hover' hend
    obtain ⟨m', hcm, hmn⟩ := hover'.split
    have hrest : m.rest.getLast?.any isIdentifierChar = true → Ends n'.rest := by
      intro hlast
      refine hend ?_
      rw [List.getLast?_append]
      cases hm : m.rest.getLast? with
      | none => rw [hm] at hlast; cases hlast
      | some d => rwa [Option.some_or, ← hm]
    have hgoes : w.getLast?.any isIdentifierChar = true → Ends m.rest → Ends m'.rest := by
      intro hlast hends
      rw [hmn.rest]
      cases hm : m.rest with
      | nil =>
        refine hend ?_
        rw [hm, List.append_nil, List.getLast?_append]
        cases hw : w.getLast? with
        | none => rw [hw] at hlast; cases hlast
        | some d => rwa [Option.some_or, ← hw]
      | cons d r => rwa [hm] at hends
    have hapart' : l.Apart w m'.rest := by
      cases l with
      | number v isNumber => trivial
      | word k => exact fun hlast => hgoes hlast (hapart hlast)
      | text v firm => exact fun hlast => hgoes hlast (hapart hlast)
      | dot => exact fun hlast => hgoes hlast (hapart hlast)
    obtain ⟨marks', hlays⟩ := ih hn hmn hrest
    exact ⟨_, .cons hg hw hcm hapart' hlays⟩

/-- A bare identifier is derived. -/
theorem lays_bare {i : Identifier} (h : Lays [i.bare] c marks n) :
    (Production.token .identifier).Derives Token.Spelled c [] n ∧ marks = [] := by
  obtain ⟨g, w, rfl, hg, rfl, hover, hapart⟩ := lays_singleton.mp h
  exact ⟨.token (.bareName hg i.isWord i.free (ends_of_apart i.isWord hapart)) hover, rfl⟩

/-- White space may be put before a name. -/
theorem derives_identifier_gap (hg : Gap g) (hover : c.Over g m)
    (h : (Production.token .identifier).Derives Token.Spelled m xs n) :
    (Production.token .identifier).Derives Token.Spelled c xs n := by
  obtain ⟨rfl, w, hw, hmn⟩ := derives_token.mp h
  exact .token (hw.behind hg ⟨nofun, nofun⟩) (hover.trans hmn)

/-- A type begins with its name. -/
theorem TypeWritten.exists_cons {i : Identifier} {numbers : Option (Several Digits)}
    {unsigned : Bool} (h : TypeWritten i numbers unsigned ls) : ∃ ls', ls = i.bare :: ls' := by
  cases h <;> exact ⟨_, rfl⟩

private theorem DataType.isTight (t : DataType) : IsTight t.text := by
  obtain ⟨ls, marks, k, hls, hlays, hk⟩ := t.written
  obtain ⟨ls', rfl⟩ := hls.exists_cons
  obtain ⟨m, ms, ms', rfl, hname, -⟩ := lays_cons.mp hlays
  obtain ⟨g, w, rfl, hg, rfl, hover, -⟩ := lays_singleton.mp hname
  have htext : t.text = g ++ (t.name.text ++ m.rest) := by
    rw [← List.append_assoc]
    exact hover.rest
  have htight := t.tight
  cases g with
  | nil =>
    rw [htext]
    exact isTight_of_isWord t.name.isWord t.name.ascii m.rest
  | cons d g =>
    rw [htext] at htight
    have hd : isGap d = true := hg d List.mem_cons_self
    have hd' : isGap d = false := htight
    rw [hd] at hd'
    cases hd'

/-- The node of a data type. -/
structure IsType (type : DataType) (t : Node) : Prop where
  rule : t.rule = .dataType
  text : t.text = String.ofList type.text
  children : t.children = []

/-- The parts of a type behind its name. -/
theorem derives_typeWritten {i : Identifier} {numbers : Option (Several Digits)}
    {unsigned : Bool} (h : TypeWritten i numbers unsigned ls) (hl : Lays ls c marks n) :
    marks = [] ∧ ∃ m, (Production.token .identifier).Derives Token.Spelled c [] m ∧
      (seqs [.option .numbers, .option (.keyword .unsigned)]).Derives Token.Spelled m [] n := by
  cases h with
  | signed hnumbers =>
    obtain ⟨m, ms, ms', rfl, h₁, h₂⟩ := lays_cons.mp hl
    obtain ⟨hname, rfl⟩ := lays_bare h₁
    obtain ⟨rfl, hd⟩ := derives_numbers hnumbers h₂
    exact ⟨rfl, m, hname, .seq hd (.seq (.right .empty) .empty)⟩
  | unsigned hnumbers =>
    obtain ⟨m, ms, ms', rfl, h₁, h₂⟩ := lays_cons.mp hl
    obtain ⟨m', ms, ms', rfl, h₂, h₃⟩ := lays_append.mp h₂
    obtain ⟨hname, rfl⟩ := lays_bare h₁
    obtain ⟨rfl, hd⟩ := derives_numbers hnumbers h₂
    obtain ⟨hword, rfl⟩ := lays_word (by decide) h₃
    exact ⟨rfl, m, hname, .seq hd (.seq (.left hword) .empty)⟩

/-- A type is derived with one node that has its text. -/
theorem lays_type {type : DataType} (h : Lays [.text type.text type.isFirm] c marks n) :
    marks = [] ∧ ∃ t, Production.dataType.Derives Token.Spelled c [t] n ∧ IsType type t := by
  obtain ⟨g, w, rfl, hg, rfl, hover, hapart⟩ := lays_singleton.mp h
  obtain ⟨m, hcm, hmn⟩ := hover.split
  obtain ⟨ls, marks, k, hls, hlays, hk⟩ := type.written
  obtain ⟨marks', hlays'⟩ := hlays.transfer hk hmn hapart
  obtain ⟨-, m', hname, hrest⟩ := derives_typeWritten hls hlays'
  have hd := Derives.seq (derives_identifier_gap hg hcm hname) hrest
  exact ⟨rfl, _, .node (.seq hd .empty), rfl, text_span hg type.isTight type.isFirm hover, rfl⟩

/-! ## Attributes and definitions -/

/-- The rule of the node of an attribute. -/
def Attribute.rule : Attribute → Rule
  | notNull => .notNull
  | null => .columnAttribute
  | primaryKey => .primaryKey
  | autoIncrement => .autoIncrement
  | unique => .unique
  | default _ => .columnAttribute
  | comment _ => .columnAttribute

/-- The node of an attribute. -/
structure IsAttribute (x : Attribute) (t : Node) : Prop where
  rule : t.rule = x.rule
  children : t.children = []

/-- There is no position, and one node, of which this holds. -/
def One {α : Type} (Q : α → Node → Prop) (x : α) (marks : List Nat) (ts : List Node) : Prop :=
  marks = [] ∧ ∃ t, ts = [t] ∧ Q x t

/-- A literal is derived. -/
theorem lays_literal {value : Literal} (h : Lays [value.lexeme] c marks n) :
    marks = [] ∧ (Production.token .literal).Derives Token.Spelled c [] n := by
  obtain ⟨g, w, rfl, hg, hw, hover, hapart⟩ := lays_singleton.mp h
  cases value with
  | string s =>
    have hv : w = stringText s := hw
    rw [hv] at hover
    exact ⟨rfl, .token (.stringLiteral hg) hover⟩
  | number v isNumber =>
    have hv : w = v := hw
    rw [hv] at hover
    exact ⟨rfl, .token (.numberLiteral hg isNumber) hover⟩
  | word v isWord ascii free =>
    have hv : w = v := hw
    rw [hv] at hover hapart
    exact ⟨rfl, .token (.wordLiteral hg isWord free (ends_of_apart isWord hapart)) hover⟩

/-- A leaf is the node of an attribute that has its rule. -/
theorem one_isAttribute {x : Attribute} (h : Production.Derives Token.Spelled a c [] n) :
    ∃ ts, (Production.leaf x.rule a).Derives Token.Spelled c ts n ∧ One IsAttribute x [] ts :=
  ⟨_, .node (.seq h .empty), rfl, _, rfl, rfl, rfl⟩

/-- However an attribute is written, the grammar derives it with its node. -/
theorem derivedBy_attribute {x : Attribute} (h : x.Written ls) :
    DerivedBy .columnAttribute (One IsAttribute) x ls := by
  intro c marks n hl
  cases h with
  | notNull =>
    obtain ⟨hd, rfl⟩ := lays_words [.not, .null] (by decide) hl
    obtain ⟨ts, ht, hts⟩ := one_isAttribute (x := .notNull) hd
    exact ⟨ts, .left ht, hts⟩
  | null =>
    obtain ⟨hd, rfl⟩ := lays_words [.null] (by decide) hl
    obtain ⟨ts, ht, hts⟩ := one_isAttribute (x := .null) hd
    exact ⟨ts, .right (.left ht), hts⟩
  | primaryKey =>
    obtain ⟨hd, rfl⟩ := lays_words [.primary, .key] (by decide) hl
    obtain ⟨ts, ht, hts⟩ := one_isAttribute (x := .primaryKey) hd
    exact ⟨ts, .right (.right (.left ht)), hts⟩
  | autoIncrement =>
    obtain ⟨hd, rfl⟩ := lays_words [.autoIncrement] (by decide) hl
    obtain ⟨ts, ht, hts⟩ := one_isAttribute (x := .autoIncrement) hd
    exact ⟨ts, .right (.right (.right (.left ht))), hts⟩
  | unique hkey =>
    obtain ⟨m, ms, ms', rfl, h₁, h₂⟩ := lays_cons.mp hl
    obtain ⟨hd, rfl⟩ := lays_word (by decide) h₁
    obtain ⟨hd', rfl⟩ := lays_optional (by decide) hkey h₂
    obtain ⟨ts, ht, hts⟩ := one_isAttribute (x := .unique) (.seq hd (.seq hd' .empty))
    exact ⟨ts, .right (.right (.right (.right (.left ht)))), hts⟩
  | @default value =>
    obtain ⟨m, ms, ms', rfl, h₁, h₂⟩ := lays_cons.mp hl
    obtain ⟨hd, rfl⟩ := lays_word (by decide) h₁
    obtain ⟨rfl, hd'⟩ := lays_literal h₂
    obtain ⟨ts, ht, hts⟩ := one_isAttribute (x := .default value) (.seq hd hd')
    exact ⟨ts, .right (.right (.right (.right (.right (.left ht))))), hts⟩
  | @comment content =>
    obtain ⟨m, ms, ms', rfl, h₁, h₂⟩ := lays_cons.mp hl
    obtain ⟨hd, rfl⟩ := lays_word (by decide) h₁
    obtain ⟨g, w, rfl, hg, rfl, hover, -⟩ := lays_singleton.mp h₂
    obtain ⟨ts, ht, hts⟩ := one_isAttribute (x := .comment content)
      (.seq hd (.token (.string hg) hover))
    exact ⟨ts, .right (.right (.right (.right (.right (.right (.left ht)))))), hts⟩

/-- The node of a definition. -/
inductive IsDefinition (d : Definition) (t : Node) : Prop
  | intro {column type attributes} : t.rule = .columnDefinition →
      t.children = column :: type :: attributes → IsName .columnName d.name column →
      IsType d.type type → List.Forall₂ IsAttribute d.attributes attributes →
      IsDefinition d t

/-- However a definition is written, the grammar derives it with its node. -/
theorem derivedBy_definition {d : Definition} (h : d.Written ls) :
    DerivedBy .definition (One IsDefinition) d ls := by
  obtain ⟨ls', rfl, hattributes⟩ := h
  intro c marks n hl
  obtain ⟨m, ms, ms', rfl, h₁, h₂⟩ := lays_cons.mp hl
  obtain ⟨m', ms, ms', rfl, h₂, h₃⟩ := lays_cons.mp h₂
  obtain ⟨rfl, column, hd₁, hcolumn⟩ := lays_name h₁ .columnName
  obtain ⟨rfl, type, hd₂, htype⟩ := lays_type h₂
  obtain ⟨ts, hd₃, hts⟩ := derives_each derivedBy_attribute hattributes h₃
  obtain ⟨rfl, hall⟩ := hts.forall₂ id
  have hd := Derives.seq hd₁ (.seq hd₂ (.seq hd₃ .empty))
  exact ⟨_, .node hd, rfl, _, rfl, rfl, congrArg _ (congrArg _ (List.append_nil ts)), hcolumn,
    htype, hall⟩

end AlterTable.Draft
