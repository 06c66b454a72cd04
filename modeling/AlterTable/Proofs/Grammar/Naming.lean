import AlterTable.Proofs.Grammar.Relocation

/-!
# Statements about a given table

A name of a table that is read whole, and by itself, is read as the name of the table wherever a
blank stands on either side of it. So statements about the same table differ in their specifications
only, and a text of the form `ALTER TABLE name specifications` is a statement just if a list of
specifications is derived behind the name (`ofText?_about_iff`).
-/

namespace AlterTable.Grammar

open AlterTable.Parse
open AlterTable.Parse.Parser

variable {c m n : Cursor} {u : Unit} {name s x : List Char} {k : Nat} {t tree : Node}

/-! ## Names behind a blank and in front of one -/

/-- White space is skipped from any place of it. -/
theorem gap_blank_cons (k : Nat) (s : List Char) : gap ⟨k, ' ' :: s⟩ = gap ⟨k + 1, s⟩ := by
  obtain ⟨n, hn⟩ := exists_gap_eq_done ⟨k + 1, s⟩
  obtain ⟨g, hg, hover, hends⟩ := gap_eq_done_iff.mp hn
  have hblank : Cursor.Over ⟨k, ' ' :: s⟩ [' '] ⟨k + 1, s⟩ := ⟨rfl, rfl⟩
  rw [hn, gap_eq_done_iff.mpr ⟨[' '] ++ g, gap_blank.append hg, hblank.trans hover, hends⟩]

private theorem identifier_blank_cons (k : Nat) (s : List Char) :
    identifier ⟨k, ' ' :: s⟩ = identifier ⟨k + 1, s⟩ := by
  rw [identifier, bind_apply, bind_apply, gap_blank_cons]

private theorem identifier_moved (h : identifier c = .done u n) (hx : Ends x) (k : Nat) :
    identifier (c.moved k x) = .done () (n.moved k x) := by
  have hreads : Reads identifier [] (.token .identifier) [lead (n.rest ++ x)] := reads_identifier
  obtain ⟨ys, -, hd⟩ := hreads.derives h
  obtain ⟨rfl, w, hw, hover⟩ := Production.derives_token.mp hd
  have hspelled := (hw.spelled nofun).append rfl hx
  have hmoved : (Production.token .identifier).Derives Token.Read (c.moved k x) [] (n.moved k x) :=
    .token ⟨hspelled.accepted, nofun⟩ (hover.moved k x)
  obtain ⟨⟨⟩, hdone, -⟩ := reads_identifier.done hmoved (List.mem_singleton_self _)
  exact hdone

/-- A dot and a name directly behind it. -/
def qualified : Parser Unit := do
  fixed ['.']
  identifier

/-- What the name of a table consists of. -/
def nameParts : Parser Unit := do
  identifier
  let _ ← maybe qualified

/-- Parts of a name that are read whole are read in front of a blank. -/
theorem nameParts_moved (h : nameParts c = .done u n) (hn : n.rest = []) (k : Nat) (s : List Char) :
    nameParts (c.moved k (' ' :: s)) = .done () (n.moved k (' ' :: s)) := by
  have hblank : Ends (' ' :: s) := rfl
  obtain ⟨⟨⟩, m, hfirst, h⟩ := bind_eq_done.mp h
  obtain ⟨o, n', hmore, h⟩ := bind_eq_done.mp h
  cases h
  refine bind_eq_done.mpr ⟨(), _, identifier_moved hfirst hblank k, ?_⟩
  rcases maybe_eq_done_iff.mp hmore with ⟨⟨⟩, -, hsecond⟩ | ⟨-, rfl, -⟩
  · obtain ⟨⟨⟩, m', hdot, hlast⟩ := bind_eq_done.mp hsecond
    have hdot' : fixed ['.'] (m.moved k (' ' :: s)) = .done () (m'.moved k (' ' :: s)) :=
      fixed_eq_done_iff.mpr ((fixed_eq_done_iff.mp hdot).moved k (' ' :: s))
    have hboth : qualified (m.moved k (' ' :: s)) = .done () (n.moved k (' ' :: s)) :=
      bind_eq_done.mpr ⟨(), _, hdot', identifier_moved hlast hblank k⟩
    exact bind_eq_done.mpr ⟨some (), _, maybe_eq_done_iff.mpr (.inl ⟨(), rfl, hboth⟩), rfl⟩
  · -- Nothing is left of a name without a dot, so what follows it is a blank and no dot.
    have hnone : ∀ v n', fixed ['.'] (n.moved k (' ' :: s)) ≠ .done v n' := by
      intro v n' hdot
      have hrest : n.rest ++ ' ' :: s = ['.'] ++ n'.rest := (fixed_eq_done_iff.mp hdot).rest
      rw [hn] at hrest
      cases hrest
    obtain ⟨t, ht⟩ := exists_refused hnone fixed_ne_fatal
    have hrefused : qualified (n.moved k (' ' :: s)) = .refused t := by
      rw [qualified, bind_apply, ht]
    exact bind_eq_done.mpr ⟨none, _, maybe_eq_done_iff.mpr (.inr ⟨rfl, rfl, t, hrefused⟩), rfl⟩

/-- The place behind a name that stands between blanks behind so many bytes. -/
def behindName (k : Nat) (name s : List Char) : Cursor :=
  ⟨k + Text.byteLength (' ' :: name), ' ' :: s⟩

/-- Behind a blank and a name one is behind the name. -/
theorem over_behindName (k : Nat) (name s : List Char) :
    Cursor.Over ⟨k, ' ' :: (name ++ ' ' :: s)⟩ (' ' :: name) (behindName k name s) :=
  ⟨rfl, rfl⟩

/-- The node of a name that stands behind a blank behind so many bytes. -/
def nameNode (k : Nat) (name : List Char) : Node :=
  span .tableName ⟨k, ' ' :: (name ++ [' '])⟩ (behindName k name []) []

private theorem nameParts_blank_cons (k : Nat) (s : List Char) :
    nameParts ⟨k, ' ' :: s⟩ = nameParts ⟨k + 1, s⟩ := by
  rw [nameParts, bind_apply, bind_apply, identifier_blank_cons]

/-- A named part is read just where its content is, with a node around it. -/
theorem node_eq_done_iff {p : Parser (List Node)} {r : Rule} :
    node r p c = .done t n ↔ ∃ xs, p c = .done xs n ∧ t = span r c n xs := by
  unfold node
  cases p c with
  | done xs m =>
    constructor
    · intro h
      cases h
      exact ⟨xs, rfl, rfl⟩
    · rintro ⟨ys, h, rfl⟩
      cases h
      rfl
  | refused e => exact ⟨fun h => (by cases h), fun ⟨_, h, _⟩ => by cases h⟩
  | fatal e => exact ⟨fun h => (by cases h), fun ⟨_, h, _⟩ => by cases h⟩

/-- A named part without nodes of its own is read just where its text is. -/
theorem leaf_eq_done_iff {p : Parser Unit} {r : Rule} :
    leaf r p c = .done t n ↔ p c = .done () n ∧ t = span r c n [] := by
  rw [leaf, node_eq_done_iff]
  constructor
  · rintro ⟨xs, h, rfl⟩
    obtain ⟨⟨⟩, m, hp, hxs⟩ := bind_eq_done.mp h
    cases hxs
    exact ⟨hp, rfl⟩
  · rintro ⟨hp, rfl⟩
    exact ⟨[], bind_eq_done.mpr ⟨(), n, hp, rfl⟩, rfl⟩

/-- A name that is read whole is read between blanks, and its node does not depend on the rest. -/
theorem tableName_between (h : tableName (.ofText name) = .done t n) (hn : n.rest = []) (k : Nat)
    (s : List Char) : tableName ⟨k, ' ' :: (name ++ ' ' :: s)⟩ =
      .done (nameNode k name) (behindName k name s) := by
  obtain ⟨hparts, -⟩ := leaf_eq_done_iff.mp h
  obtain ⟨_, hxs, hd⟩ := reads_tableName.derives h
  obtain ⟨w, hw⟩ := hd.over
  have hname : name = w := by
    have hrest : name = w ++ n.rest := hw.rest
    rwa [hn, List.append_nil] at hrest
  have hstart : (Cursor.ofText name).moved (k + 1) (' ' :: s) = ⟨k + 1, name ++ ' ' :: s⟩ := by
    rw [Cursor.moved, Cursor.ofText, Nat.zero_add]
  have hend : n.moved (k + 1) (' ' :: s) = behindName k name s := by
    have hoffset : n.offset = 0 + Text.byteLength w := hw.offset
    have hblank : Text.byteLength (' ' :: name) = 1 + Text.byteLength name := rfl
    rw [Cursor.moved, behindName, hn, hoffset, hblank, hname]
    simp only [List.nil_append, Cursor.mk.injEq, and_true]
    omega
  have hmoved := nameParts_moved hparts hn (k + 1) s
  rw [hstart, hend, ← nameParts_blank_cons] at hmoved
  have hspan := span_congr (over_behindName k name s) (over_behindName k name []) rfl .tableName []
  exact leaf_eq_done_iff.mpr ⟨hmoved, hspan.symm⟩

/-! ## Statements about the table -/

/-- In front of what it may go on with, a part is derived in one way only. -/
theorem ReadsAs.unique {α : Type} [HasTrees α] {p : Parser α} {pre ys zs : List Node}
    {a : Production} {follow : List Lead} {spelling : Token → List Char → List Char → Prop}
    (h : ReadsAs spelling p pre a follow) (hd : a.Derives Token.Read c ys n)
    (hn : lead n.rest ∈ follow) (hd' : a.Derives Token.Read c zs m) (hm : lead m.rest ∈ follow) :
    n = m ∧ ys = zs := by
  obtain ⟨v, hv, hys⟩ := h.done hd hn
  obtain ⟨v', hv', hzs⟩ := h.done hd' hm
  obtain ⟨rfl, rfl⟩ := Outcome.done.inj (hv.symm.trans hv')
  exact ⟨rfl, List.append_cancel_left (hys.symm.trans hzs)⟩

/-- The text of a statement about a table of this name. -/
def about (name s : List Char) : List Char :=
  "ALTER TABLE".toList ++ ' ' :: (name ++ ' ' :: s)

/-- What may follow the specifications: `[;]` and white space. -/
def Production.closing : Production :=
  .seqs [.option (.mark .semicolon), .token .space, .token .stop]

/-- The text is white space, perhaps with a semicolon somewhere in it. -/
def IsClosing (r : List Char) : Prop :=
  Gap r ∨ ∃ g g', r = g ++ ';' :: g' ∧ Gap g ∧ Gap g'

/-- The end of a statement has semicolons and white space only. -/
theorem IsClosing.mem {r : List Char} (h : IsClosing r) : ∀ d ∈ r, d = ';' ∨ isGap d = true := by
  rcases h with hg | ⟨g, g', rfl, hg, hg'⟩
  · exact fun d hd => .inr (hg d hd)
  · intro d hd
    rcases List.mem_append.mp hd with hd | hd
    · exact .inr (hg d hd)
    · exact (List.mem_cons.mp hd).imp id (hg' d)

namespace Production

/-- Where the text ends with white space that is skipped. -/
theorem derives_ending_iff {c n : Cursor} {xs : List Node} :
    (seqs [.token .space, .token .stop]).Derives Token.Read c xs n ↔
      xs = [] ∧ Gap c.rest ∧ c.Over c.rest n := by
  constructor
  · intro h
    obtain ⟨_, m, _, rfl, hspace, hend⟩ := derives_seq.mp h
    obtain ⟨_, m', _, rfl, hstop, hnil⟩ := derives_seq.mp hend
    obtain ⟨rfl, rfl⟩ := derives_empty.mp hnil
    obtain ⟨rfl, g, hg, hover⟩ := derives_token.mp hspace
    obtain ⟨rfl, w, hw, hover'⟩ := derives_token.mp hstop
    obtain ⟨hgap, -⟩ := Token.spelled_space.mp (hg.spelled nofun)
    obtain ⟨rfl, hrest⟩ := Token.spelled_stop.mp (hw.spelled nofun)
    have hall := hover.trans hover'
    rw [List.append_nil] at hall
    have htext : c.rest = g := by
      rw [hall.rest, hrest, List.append_nil]
    rw [htext]
    exact ⟨rfl, hgap, hall⟩
  · rintro ⟨rfl, hg, hover⟩
    have hrest : n.rest = [] := List.self_eq_append_right.mp hover.rest
    have hspace : Token.Spelled .space c.rest n.rest := .space hg (by rw [hrest]; rfl)
    have hstop : Token.Spelled .stop [] n.rest := Token.spelled_stop.mpr ⟨rfl, hrest⟩
    exact .seq (.token ⟨hspace.accepted, nofun⟩ hover)
      (.seq (.token ⟨hstop.accepted, nofun⟩ (.refl n)) .empty)

/-- What may follow the specifications is all that is left of the text. -/
theorem Derives.isClosing {c n : Cursor} {xs : List Node}
    (h : closing.Derives Token.Read c xs n) : xs = [] ∧ IsClosing c.rest := by
  obtain ⟨_, m, _, rfl, hmark, hend⟩ := derives_seq.mp h
  obtain ⟨rfl, hg', -⟩ := derives_ending_iff.mp hend
  rcases derives_alt.mp hmark with hmark | hnone
  · obtain ⟨rfl, w, hw, hover⟩ := derives_token.mp hmark
    cases hw.spelled nofun with
    | @mark _ g _ hg =>
      refine ⟨rfl, .inr ⟨g, m.rest, ?_, hg, hg'⟩⟩
      rw [hover.rest, List.append_assoc]
      rfl
  · obtain ⟨rfl, rfl⟩ := derives_empty.mp hnone
    exact ⟨rfl, .inl hg'⟩

/-- Whatever may end a statement is derived as its end. -/
theorem exists_derives_closing {c : Cursor} (h : IsClosing c.rest) :
    ∃ n, closing.Derives Token.Read c [] n := by
  have hover : ∀ m : Cursor, m.Over m.rest ⟨m.offset + Text.byteLength m.rest, []⟩ := fun m =>
    ⟨(List.append_nil _).symm, rfl⟩
  rcases h with hg | ⟨g, g', hrest, hg, hg'⟩
  · exact ⟨_, .seq (.right .empty) (derives_ending_iff.mpr ⟨rfl, hg, hover c⟩)⟩
  · have hmark : Token.Spelled (.mark .semicolon) (g ++ [';']) g' := .mark hg
    have hbefore : c.Over (g ++ [';']) ⟨c.offset + Text.byteLength (g ++ [';']), g'⟩ := by
      refine ⟨?_, rfl⟩
      rw [hrest, List.append_assoc]
      rfl
    exact ⟨_, .seq (.left (.token ⟨hmark.accepted, nofun⟩ hbefore))
      (derives_ending_iff.mpr ⟨rfl, hg', hover _⟩)⟩

end Production

/-- The two words in front of a table's name are derived. -/
theorem derives_opening (name s : List Char) :
    (Production.keywords [.alter, .table]).Derives Token.Read (.ofText (about name s)) []
      ⟨11, ' ' :: (name ++ ' ' :: s)⟩ := by
  have halter : Token.Spelled (.keyword .alter) "ALTER".toList
      (" TABLE".toList ++ ' ' :: (name ++ ' ' :: s)) := .keyword gap_nil rfl rfl
  have htable : Token.Spelled (.keyword .table) " TABLE".toList (' ' :: (name ++ ' ' :: s)) :=
    .keyword gap_blank rfl rfl
  exact .seq (.token (n := ⟨5, " TABLE".toList ++ ' ' :: (name ++ ' ' :: s)⟩)
      ⟨halter.accepted, nofun⟩ ⟨rfl, rfl⟩)
    (.seq (.token ⟨htable.accepted, nofun⟩ ⟨rfl, rfl⟩) .empty)

/-- A text about a table is a statement just if specifications are derived behind the name, and the
tree has the name's node in front of theirs. -/
theorem ofText?_about_iff {text : String} (h : tableName (.ofText name) = .done t n)
    (hn : n.rest = []) (htext : text.toList = about name s) : Node.ofText? text = .ok tree ↔
      ∃ xs e m, (Production.list .specification).Derives Token.Read (behindName 11 name s) xs e ∧
        Production.closing.Derives Token.Read e [] m ∧
        tree = span .alterTable (.ofText text.toList) e (nameNode 11 name :: xs) := by
  have hname := tableName_between h hn 11 s
  have hopening := derives_opening name s
  rw [← htext] at hopening
  rw [ofText?_eq_ok_iff_derives]
  constructor
  · rintro ⟨m, hd⟩
    obtain ⟨ys, e, zs, htree, halter, hclosing⟩ := Production.derives_seq.mp hd
    obtain ⟨xs, rfl, hbody⟩ := Production.derives_node.mp halter
    obtain ⟨rfl, rfl⟩ := List.cons.inj htree
    obtain ⟨us, m', vs, rfl, hwords, hrest⟩ := Production.derives_seq.mp hbody
    obtain ⟨ts, m'', ws, rfl, htable, hlast⟩ := Production.derives_seq.mp hrest
    obtain ⟨xs, e', _, rfl, hlist, hend⟩ := Production.derives_seq.mp hlast
    obtain ⟨rfl, rfl⟩ := Production.derives_empty.mp hend
    have hreads : Reads (keywords [.alter, .table]) [] (.keywords [.alter, .table])
        [lead m'.rest, lead (' ' :: (name ++ ' ' :: s))] := reads_keywords _
    obtain ⟨rfl, rfl⟩ := hreads.unique hwords List.mem_cons_self hopening
      (List.mem_cons_of_mem _ (List.mem_singleton_self _))
    have hlead : lead m''.rest ∈ Production.specification.first := by
      have hsub : (Production.list .specification).first ⊆ Production.specification.first := by
        decide
      exact hsub (hlist.accepted.lead_first rfl)
    obtain ⟨v, hv, hts⟩ := reads_tableName.done htable hlead
    obtain ⟨rfl, rfl⟩ := Outcome.done.inj (hv.symm.trans hname)
    have hnode : ts = [nameNode 11 name] := hts.symm
    rw [hnode, List.append_nil]
    exact ⟨xs, _, m, hlist, hclosing, rfl⟩
  · rintro ⟨xs, e, m, hlist, hclosing, rfl⟩
    obtain ⟨ts, hts, htable⟩ := reads_tableName.derives hname
    have hnode : ts = [nameNode 11 name] := hts.symm
    subst hnode
    have hall := Production.Derives.seq (.node (r := .alterTable)
      (.seq hopening (.seq (htable.read_of_tokens (by decide)) (.seq hlist .empty)))) hclosing
    rw [List.append_nil, List.append_nil] at hall
    exact ⟨m, hall⟩

end AlterTable.Grammar
