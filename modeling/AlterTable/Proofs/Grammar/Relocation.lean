import AlterTable.Proofs.Grammar.Exactness
import AlterTable.Proofs.Node.MapStart

/-!
# Derivations in another place

What is derived from a part of a text is derived from that part wherever it stands, if what follows
does not run into it. The trees are the same but for their offsets, which grow by the number of
bytes that more text stands in front.

A Kelvin sign makes the one difference between reading a token and spelling it. Where there is none
the two agree, so that a part that ends a text and is read there is read with more text behind it.
-/

namespace AlterTable

open AlterTable.Parse

/-! ## Trees further on -/

namespace Node

/-- The tree with `k` more bytes before it. -/
abbrev shift (k : Nat) (n : Node) : Node :=
  n.mapStart (· + k)

mutual

private theorem mapStart_id : ∀ n : Node, n.mapStart id = n
  | ⟨rule, text, start, children⟩ => by rw [mapStart, mapStarts_id children, id]

private theorem mapStarts_id : ∀ ns : List Node, mapStarts id ns = ns
  | [] => rfl
  | n :: ns => by rw [mapStarts, mapStart_id n, mapStarts_id ns]

end

/-- Behind the first byte of the text, a node ends as much further on as it starts. -/
theorem stop_shift {n : Node} {k : Nat} (h : 0 < n.start) : (n.shift k).stop = n.stop + k := by
  rw [stop, stop, start_mapStart, text_mapStart]
  omega

end Node

/-! ## Places further on -/

namespace Parse.Cursor

variable {c n : Cursor} {w x : List Char} {k : Nat}

/-- The place in a text with `k` more bytes in front of it and `x` behind what is left. -/
def moved (c : Cursor) (k : Nat) (x : List Char) : Cursor :=
  ⟨c.offset + k, c.rest ++ x⟩

/-- Further on in a longer text the same characters are passed over. -/
theorem Over.moved (h : c.Over w n) (k : Nat) (x : List Char) :
    (c.moved k x).Over w (n.moved k x) where
  rest := by
    show c.rest ++ x = w ++ (n.rest ++ x)
    rw [h.rest, List.append_assoc]
  offset := by
    show n.offset + k = c.offset + k + Text.byteLength w
    rw [h.offset]
    omega

end Parse.Cursor

namespace Grammar

variable {t : Token} {w r x : List Char} {c c' m n n' : Cursor} {k : Nat} {xs ys : List Node}
variable {a : Production} {spelling spelling' : Token → List Char → List Char → Prop}

/-- A node depends on the text that it spans and on the offset only. -/
theorem span_congr (h : c.Over w n) (h' : c'.Over w n') (hoffset : c.offset = c'.offset) (r : Rule)
    (xs : List Node) : span r c n xs = span r c' n' xs := by
  rw [span, span, h.upTo_eq, h'.upTo_eq, hoffset]

/-- A node that is read further on is the same node, further on. -/
theorem span_moved (h : c.Over w n) (k : Nat) (x : List Char) (r : Rule) (xs : List Node) :
    span r (c.moved k x) (n.moved k x) (xs.map (Node.shift k)) = (span r c n xs).shift k := by
  have hstart : (c.moved k x).offset + Text.byteLength (w.takeWhile Text.isWhiteSpace) =
      c.offset + Text.byteLength (w.takeWhile Text.isWhiteSpace) + k :=
    Nat.add_right_comm ..
  rw [span, span, (h.moved k x).upTo_eq, h.upTo_eq, hstart, Node.shift, Node.mapStart,
    Node.mapStarts_eq_map]

/-! ## More text behind -/

/-- Where a word ends, it still ends if more text is put behind, as long as that begins no word. -/
theorem Ends.append (hr : Ends r) (hx : Ends x) : Ends (r ++ x) := by
  cases r with
  | nil => exact hx
  | cons d r => exact hr

/-- A token is spelled in front of more text that does not run into it. -/
theorem Token.Spelled.append (h : t.Spelled w r) (ht : t.nullable = false) (hx : Ends x) :
    t.Spelled w (r ++ x) := by
  cases h with
  | keyword hg hw hr => exact .keyword hg hw (hr.append hx)
  | mark hg => exact .mark hg
  | dot => exact .dot
  | quotedName hg hw => exact .quotedName hg hw
  | bareName hg hw hfree hr => exact .bareName hg hw hfree (hr.append hx)
  | digits hg hw => exact .digits hg hw
  | string hg => exact .string hg
  | stringLiteral hg => exact .stringLiteral hg
  | numberLiteral hg hw => exact .numberLiteral hg hw
  | wordLiteral hg hw hd hr => exact .wordLiteral hg hw hd (hr.append hx)
  | space => cases ht
  | stop => cases ht

/-- A text without a Kelvin sign is not a lone sign. -/
theorem not_isLoneSign (h : kelvinSign ∉ w) : ¬ IsLoneSign w := by
  rintro ⟨g, -, rfl⟩
  exact h (List.mem_append_right g (List.mem_singleton_self _))

namespace Production

/-- What is derived is derived further on and in front of more text, if its tokens are. -/
theorem Derives.moved (h : a.Derives spelling c xs n)
    (hsub : ∀ t ∈ a.tokens, ∀ w r, spelling t w r → spelling' t w (r ++ x)) (k : Nat) :
    a.Derives spelling' (c.moved k x) (xs.map (Node.shift k)) (n.moved k x) := by
  induction h with
  | empty => exact .empty
  | token hw hover => exact .token (hsub _ (List.mem_singleton_self _) _ _ hw) (hover.moved k x)
  | seq _ _ iha ihb =>
    rw [List.map_append]
    exact .seq (iha fun t ht => hsub t (List.mem_append_left _ ht))
      (ihb fun t ht => hsub t (List.mem_append_right _ ht))
  | left _ ih => exact .left (ih fun t ht => hsub t (List.mem_append_left _ ht))
  | right _ ih => exact .right (ih fun t ht => hsub t (List.mem_append_right _ ht))
  | starNil => exact .starNil
  | starCons _ _ iha ihs =>
    rw [List.map_append]
    exact .starCons (iha hsub) (ihs hsub)
  | @node r _ _ _ xs hda ih =>
    obtain ⟨w, hw⟩ := hda.over
    have hd := Derives.node (r := r) (ih hsub)
    rw [span_moved hw] at hd
    exact hd

/-- Further on in the same text the same is derived. -/
theorem Derives.movedOn (h : a.Derives spelling c xs n) (k : Nat) :
    a.Derives spelling ⟨c.offset + k, c.rest⟩ (xs.map (Node.shift k)) ⟨n.offset + k, n.rest⟩ := by
  have hsub : ∀ t ∈ a.tokens, ∀ w r, spelling t w r → spelling t w (r ++ []) := by
    intro t _ w r hw
    rwa [List.append_nil]
  have hd := h.moved hsub k
  rwa [Cursor.moved, Cursor.moved, List.append_nil, List.append_nil] at hd

/-- In front of more text the same is derived. -/
theorem Derives.inFrontOf (h : a.Derives Token.Spelled c xs n)
    (ha : ∀ t ∈ a.tokens, t.nullable = false) (hx : Ends x) :
    a.Derives Token.Spelled ⟨c.offset, c.rest ++ x⟩ xs ⟨n.offset, n.rest ++ x⟩ := by
  have hd := h.moved (fun t ht w r hw => hw.append (ha t ht) hx) 0
  have hsame : xs.map (Node.shift 0) = xs := by
    refine (List.map_congr_left fun n _ => ?_).trans (List.map_id xs)
    exact n.mapStart_id
  rwa [hsame] at hd

/-! ## Texts without a Kelvin sign -/

/-- Without a Kelvin sign in the text, what is read is what is spelled. -/
theorem Derives.spelled_of_notMem (h : a.Derives Token.Read c xs n) (hc : kelvinSign ∉ c.rest) :
    a.Derives Token.Spelled c xs n := by
  refine h.mono fun t _ u w m hover hw => hw.1.resolve_right ?_
  rintro ⟨-, -, g, -, rfl⟩
  refine hc ?_
  rw [hover.rest]
  simp

/-- Without a Kelvin sign in the text, what is spelled is what is read. -/
theorem Derives.read_of_notMem (h : a.Derives Token.Spelled c xs n) (hc : kelvinSign ∉ c.rest) :
    a.Derives Token.Read c xs n := by
  refine h.mono fun t _ u w m hover hw => ⟨hw.accepted, fun _ => not_isLoneSign fun hm => hc ?_⟩
  rw [hover.rest]
  exact List.mem_append_right _ hm

/-! ## Lists -/

/-- Two repetitions, one behind the other, are one. -/
theorem Derives.star_append (h : (Production.star a).Derives spelling c xs m)
    (h' : (Production.star a).Derives spelling m ys n) :
    (Production.star a).Derives spelling c (xs ++ ys) n := by
  generalize hs : Production.star a = s at h
  induction h with
  | starNil =>
    cases hs
    exact h'
  | starCons hda _ _ ih =>
    cases hs
    rw [List.append_assoc]
    exact .starCons hda (ih h' rfl)
  | _ => cases hs

/-- Two lists with a comma between them are one list. -/
theorem Derives.list_append (h : (list a).Derives spelling c xs m)
    (hcomma : (mark .comma).Derives spelling m [] c') (h' : (list a).Derives spelling c' ys n) :
    (list a).Derives spelling c (xs ++ ys) n := by
  obtain ⟨xs, m', _, rfl, hfirst, hrest⟩ := derives_seq.mp h
  obtain ⟨xss, m'', _, rfl, hmore, hend⟩ := derives_seq.mp hrest
  obtain ⟨rfl, rfl⟩ := derives_empty.mp hend
  obtain ⟨ys, l, _, rfl, hfirst', hrest'⟩ := derives_seq.mp h'
  obtain ⟨yss, l', _, rfl, hmore', hend'⟩ := derives_seq.mp hrest'
  obtain ⟨rfl, rfl⟩ := derives_empty.mp hend'
  have hstar := hmore.star_append (.starCons (.seq hcomma hfirst') hmore')
  have hall := Derives.seq hfirst (.seq hstar .empty)
  rw [List.append_nil, List.append_nil]
  rw [List.nil_append, List.append_nil] at hall
  rwa [List.append_assoc]

end Production

end Grammar

end AlterTable
