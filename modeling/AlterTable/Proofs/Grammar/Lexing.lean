import AlterTable.Proofs.Grammar.Reading

/-!
# Parsers of single tokens

Each token parser reads its token, in front of whatever follows. The two exceptions are numbers
and strings, which the parser takes as far as they go while the grammar lets them end anywhere:
what follows must not begin with a digit, a point or a quote.
-/

namespace AlterTable.Parse.Cursor

variable {c n : Cursor} {v w : List Char}

/-- The way over two texts has a place between them. -/
theorem Over.split (h : c.Over (v ++ w) n) : ∃ m, c.Over v m ∧ m.Over w n := by
  refine ⟨⟨c.offset + Text.byteLength v, w ++ n.rest⟩, ⟨?_, rfl⟩, rfl, ?_⟩
  · rw [h.rest, List.append_assoc]
  · rw [h.offset, Text.byteLength_append, Nat.add_assoc]

end AlterTable.Parse.Cursor

namespace AlterTable.Grammar

open AlterTable.Parse
open AlterTable.Parse.Parser

variable {c m n : Cursor} {g v w : List Char} {e : Expectation}
variable {width? : List Char → Option Nat} {follow : List Lead}

/-! ## Lexemes -/

/-- A lexeme is read up to the place that its width leads to. -/
theorem lexeme_done (h : c.Over w n) (hw : width? (w ++ n.rest) = some w.length) :
    lexeme e width? c = .done w n := by
  have hrest : width? c.rest = some w.length := h.rest ▸ hw
  rw [lexeme, hrest]
  show Outcome.done (c.rest.take w.length) (c.advance w.length) = _
  rw [← h.eq_advance, h.rest, List.take_left' rfl]

/-- A lexeme takes a text of the width that was measured. -/
theorem over_of_lexeme (h : lexeme e width? c = .done v n) :
    c.Over v n ∧ ∃ k, width? c.rest = some k ∧ v = c.rest.take k := by
  unfold lexeme at h
  split at h
  next k hk =>
    cases h
    exact ⟨c.over_advance k, k, hk, rfl⟩
  next => cases h

/-- A missing lexeme can always be something else. -/
theorem lexeme_ne_fatal (t : Trace) : lexeme e width? c ≠ .fatal t := by
  unfold lexeme
  split <;> exact fun h => by cases h

/-- Where a lexeme refuses, nothing was measured. -/
theorem width?_eq_none {t : Trace} {u : Unit}
    (h : (lexeme e width? >>= fun _ => pure u) c = .refused t) : width? c.rest = none := by
  rw [bind_apply, lexeme] at h
  cases hw : width? c.rest with
  | none => rfl
  | some k =>
    rw [hw] at h
    cases h

/-- A fixed text is taken where the text begins with it. -/
theorem lexeme_text_eq_done_iff : lexeme e (textWidth? w) c = .done v n ↔ v = w ∧ c.Over w n := by
  constructor
  · intro h
    obtain ⟨hover, k, hk, rfl⟩ := over_of_lexeme h
    unfold textWidth? at hk
    split at hk
    next hp =>
      cases hk
      have htake := List.prefix_iff_eq_take.mp (List.isPrefixOf_iff_prefix.mp hp)
      rw [← htake] at hover ⊢
      exact ⟨rfl, hover⟩
    next => cases hk
  · rintro ⟨rfl, hover⟩
    refine lexeme_done hover ?_
    rw [textWidth?, if_pos (List.isPrefixOf_iff_prefix.mpr (List.prefix_append v n.rest))]

/-- Characters of a class are taken as far as they go. -/
theorem lexeme_run_eq_done_iff {p : Char → Bool} : lexeme e (runWidth? p) c = .done v n ↔
    c.Over v n ∧ v ≠ [] ∧ (∀ c ∈ v, p c = true) ∧ n.rest.head?.any p = false := by
  constructor
  · intro h
    obtain ⟨hover, k, hk, hv⟩ := over_of_lexeme h
    have hlen : k = (c.rest.takeWhile p).length ∧ c.rest.takeWhile p ≠ [] := by
      unfold runWidth? at hk
      split at hk
      next => cases hk
      next j hj =>
        cases hk
        exact ⟨hj.symm, fun hnil => by rw [hnil] at hj; cases hj⟩
    have hrun : v = c.rest.takeWhile p := by
      rw [hv, hlen.1, ← List.prefix_iff_eq_take.mp (List.takeWhile_prefix p)]
    have hrest : n.rest = c.rest.dropWhile p := by
      have happ : c.rest = c.rest.takeWhile p ++ n.rest := hrun ▸ hover.rest
      exact List.append_cancel_left (happ.symm.trans List.takeWhile_append_dropWhile.symm)
    refine ⟨hover, hrun ▸ hlen.2, ?_, ?_⟩
    · rw [hrun]
      exact List.all_eq_true.mp List.all_takeWhile
    · have hnot := List.head?_dropWhile_not p c.rest
      rw [hrest]
      cases hd : (c.rest.dropWhile p).head? with
      | none => rfl
      | some d =>
        rw [hd] at hnot
        simpa using hnot
  · rintro ⟨hover, hne, hall, hr⟩
    refine lexeme_done hover ?_
    rw [runWidth?, takeWhile_append_of_all hall hr]
    cases v with
    | nil => exact absurd rfl hne
    | cons d v => rfl

/-! ## White space and marks -/

/-- White space is skipped as far as it goes. -/
theorem gap_eq_done_iff {u : Unit} :
    gap c = .done u n ↔ ∃ g, Gap g ∧ c.Over g n ∧ n.rest.head?.any isGap = false := by
  have hdrop : (c.rest.dropWhile isGap).head?.any isGap = false := by
    have hnot := List.head?_dropWhile_not isGap c.rest
    cases hd : (c.rest.dropWhile isGap).head? with
    | none => rfl
    | some d => rw [hd] at hnot; simpa using hnot
  have hgap : gap c = .done () (c.advance (c.rest.takeWhile isGap).length) := rfl
  have hover : c.Over (c.rest.takeWhile isGap) (c.advance (c.rest.takeWhile isGap).length) := by
    have h := c.over_advance (c.rest.takeWhile isGap).length
    rwa [← List.prefix_iff_eq_take.mp (List.takeWhile_prefix isGap)] at h
  have hrest : (c.advance (c.rest.takeWhile isGap).length).rest = c.rest.dropWhile isGap :=
    List.append_cancel_left (hover.rest.symm.trans List.takeWhile_append_dropWhile.symm)
  rw [hgap]
  constructor
  · intro h
    cases h
    exact ⟨_, List.all_eq_true.mp List.all_takeWhile, hover, by rw [hrest, hdrop]⟩
  · rintro ⟨g, hg, hover', hn⟩
    have hsame : c.rest.takeWhile isGap = g := by
      rw [hover'.rest, takeWhile_append_of_all hg hn]
    rw [hsame, ← hover'.eq_advance]

/-- Skipping white space always succeeds. -/
theorem exists_gap_eq_done (c : Cursor) : ∃ n, gap c = .done () n :=
  ⟨_, rfl⟩

variable {α β : Type}

/-- Behind white space the parser goes on with the text. -/
theorem gap_bind (hg : Gap g) (h : c.Over g m) (hm : m.rest.head?.any isGap = false)
    (f : Unit → Parser α) : (gap >>= f) c = f () m := by
  rw [bind_apply, gap_eq_done_iff.mpr ⟨g, hg, h, hm⟩]

/-- What is read behind white space. -/
theorem gap_bind_eq_done {f : Unit → Parser α} {a : α} (h : (gap >>= f) c = .done a n) :
    ∃ g m, Gap g ∧ c.Over g m ∧ f () m = .done a n := by
  rw [bind_apply] at h
  obtain ⟨m, hm⟩ := exists_gap_eq_done c
  obtain ⟨g, hg, hover, -⟩ := gap_eq_done_iff.mp hm
  rw [hm] at h
  exact ⟨g, m, hg, hover, h⟩

/-- White space in front makes no failure final. -/
theorem gap_bind_ne_fatal {f : Unit → Parser α} (hf : ∀ m t, f () m ≠ .fatal t) (t : Trace) :
    (gap >>= f) c ≠ .fatal t := by
  rw [bind_apply]
  obtain ⟨m, hm⟩ := exists_gap_eq_done c
  rw [hm]
  exact hf m t

/-- Two parsers read one behind the other just if both read. -/
theorem bind_eq_done {p : Parser α} {f : α → Parser β} {b : β} :
    (p >>= f) c = .done b n ↔ ∃ a m, p c = .done a m ∧ f a m = .done b n := by
  rw [bind_apply]
  cases p c with
  | done a m => exact ⟨fun h => ⟨a, m, rfl, h⟩, fun ⟨_, _, h, h'⟩ => by cases h; exact h'⟩
  | refused t => exact ⟨fun h => (by cases h), fun ⟨_, _, h, _⟩ => by cases h⟩
  | fatal t => exact ⟨fun h => (by cases h), fun ⟨_, _, h, _⟩ => by cases h⟩

/-- Two parsers whose failures are never final have none together. -/
theorem bind_ne_fatal {p : Parser α} {f : α → Parser β} (hp : ∀ t, p c ≠ .fatal t)
    (hf : ∀ a m t, f a m ≠ .fatal t) (t : Trace) : (p >>= f) c ≠ .fatal t := by
  rw [bind_apply]
  cases h : p c with
  | done a m => exact hf a m t
  | refused t' => exact fun h' => by cases h'
  | fatal t' => exact absurd h (hp t')

/-- A parser that neither reads nor fails for good refuses. -/
theorem exists_refused {p : Parser α} (hd : ∀ a n, p c ≠ .done a n) (hf : ∀ t, p c ≠ .fatal t) :
    ∃ t, p c = .refused t := by
  cases h : p c with
  | done a n => exact absurd h (hd a n)
  | refused t => exact ⟨t, rfl⟩
  | fatal t => exact absurd h (hf t)

/-! ## Alternatives at one place -/

/-- The first alternative that reads is the one that is taken. -/
theorem choiceAfter_of_done {p : Parser α} {ps : List (Parser α)} {a : α}
    (h : p c = .done a n) (last : Trace) : choiceAfter last (p :: ps) c = .done a n := by
  rw [choiceAfter, h]

/-- A refused alternative is passed over, and its trace is kept. -/
theorem choiceAfter_of_refused {p : Parser α} {ps : List (Parser α)} {t : Trace}
    (h : p c = .refused t) (last : Trace) : choiceAfter last (p :: ps) c = choiceAfter t ps c := by
  rw [choiceAfter, h]

/-- A choice reads what its first alternative reads, or, where this one is refused, what the others
read. -/
theorem choiceAfter_cons_eq_done_iff {p : Parser α} {ps : List (Parser α)} {a : α} {last : Trace} :
    choiceAfter last (p :: ps) c = .done a n ↔
      p c = .done a n ∨ ∃ t, p c = .refused t ∧ choiceAfter t ps c = .done a n := by
  rw [choiceAfter]
  cases hp : p c with
  | done b m =>
    constructor
    · exact .inl
    · rintro (h | ⟨t, h, -⟩)
      · exact h
      · cases h
  | refused t =>
    constructor
    · exact fun h => .inr ⟨t, rfl, h⟩
    · rintro (h | ⟨t', h, h'⟩)
      · cases h
      · cases h
        exact h'
  | fatal t =>
    constructor
    · intro h
      cases h
    · rintro (h | ⟨t', h, -⟩) <;> cases h

/-- What a choice reads one of its alternatives reads. -/
theorem exists_of_choiceAfter {ps : List (Parser α)} {a : α} {last : Trace}
    (h : choiceAfter last ps c = .done a n) : ∃ p ∈ ps, p c = .done a n := by
  induction ps generalizing last with
  | nil => cases h
  | cons p ps ih =>
    obtain hp | ⟨t, -, hps⟩ := choiceAfter_cons_eq_done_iff.mp h
    · exact ⟨p, List.mem_cons_self, hp⟩
    · obtain ⟨q, hq, hqc⟩ := ih hps
      exact ⟨q, List.mem_cons_of_mem _ hq, hqc⟩

/-- Where a choice refuses, its alternatives do. -/
theorem exists_refused_of_choiceAfter {ps : List (Parser α)} {last t : Trace}
    (h : choiceAfter last ps c = .refused t) : ∀ p ∈ ps, ∃ t, p c = .refused t := by
  induction ps generalizing last with
  | nil => exact fun p hp => absurd hp List.not_mem_nil
  | cons p ps ih =>
    cases hp : p c with
    | done a n =>
      rw [choiceAfter_of_done hp] at h
      cases h
    | refused t' =>
      rw [choiceAfter_of_refused hp] at h
      intro q hq
      obtain rfl | hq := List.mem_cons.mp hq
      · exact ⟨t', hp⟩
      · exact ih h q hq
    | fatal t' =>
      rw [choiceAfter, hp] at h
      cases h

/-- A choice fails for good only where an alternative does. -/
theorem choiceAfter_ne_fatal {ps : List (Parser α)} {last : Trace}
    (h : ∀ p ∈ ps, ∀ t, p c ≠ .fatal t) (t : Trace) : choiceAfter last ps c ≠ .fatal t := by
  induction ps generalizing last with
  | nil => exact fun h' => by cases h'
  | cons p ps ih =>
    rw [choiceAfter]
    split
    · exact ih fun q hq => h q (List.mem_cons_of_mem _ hq)
    · exact h p List.mem_cons_self t

/-! ## Options -/

/-- An optional part reads what the part reads, or nothing where the part is refused. -/
theorem maybe_eq_done_iff {p : Parser α} {o : Option α} : maybe p c = .done o n ↔
    (∃ a, o = some a ∧ p c = .done a n) ∨ (o = none ∧ n = c ∧ ∃ t, p c = .refused t) := by
  unfold maybe
  cases hp : p c with
  | done a m =>
    constructor
    · intro h
      cases h
      exact .inl ⟨a, rfl, rfl⟩
    · rintro (⟨b, rfl, h⟩ | ⟨-, -, t, h⟩)
      · cases h
        rfl
      · cases h
  | refused t =>
    constructor
    · intro h
      cases h
      exact .inr ⟨rfl, rfl, t, rfl⟩
    · rintro (⟨b, rfl, h⟩ | ⟨rfl, rfl, -⟩)
      · cases h
      · rfl
  | fatal t =>
    constructor
    · intro h
      cases h
    · rintro (⟨b, rfl, h⟩ | ⟨-, -, t, h⟩) <;> cases h

/-- An optional part is always read if the part never fails for good. -/
theorem exists_maybe_eq_done {p : Parser α} (hp : ∀ t, p c ≠ .fatal t) :
    ∃ o m, maybe p c = .done o m := by
  unfold maybe
  cases h : p c with
  | done a m => exact ⟨some a, m, rfl⟩
  | refused t => exact ⟨none, c, rfl⟩
  | fatal t => exact absurd h (hp t)

/-- An optional part fails for good only where the part does. -/
theorem maybe_ne_fatal {p : Parser α} (hp : ∀ t, p c ≠ .fatal t) (t : Trace) :
    maybe p c ≠ .fatal t := by
  obtain ⟨o, m, h⟩ := exists_maybe_eq_done hp
  rw [h]
  exact fun h' => by cases h'

/-! ## Fixed texts -/

/-- A fixed text is read just where it stands. -/
theorem fixed_eq_done_iff {u : Unit} : fixed w c = .done u n ↔ c.Over w n := by
  rw [fixed, bind_eq_done]
  constructor
  · rintro ⟨v, m, h, hp⟩
    cases hp
    exact (lexeme_text_eq_done_iff.mp h).2
  · intro h
    exact ⟨w, n, lexeme_text_eq_done_iff.mpr ⟨rfl, h⟩, rfl⟩

/-- A missing fixed text can always be something else. -/
theorem fixed_ne_fatal (t : Trace) : fixed w c ≠ .fatal t :=
  bind_ne_fatal lexeme_ne_fatal (fun _ _ _ h => by cases h) t

/-- A character is read just where it stands. -/
theorem character_eq_done_iff {d : Char} {u : Unit} :
    character d c = .done u n ↔ c.Over [d] n := by
  rw [character, bind_eq_done]
  constructor
  · rintro ⟨v, m, h, hp⟩
    cases hp
    exact (lexeme_text_eq_done_iff.mp h).2
  · intro h
    exact ⟨[d], n, lexeme_text_eq_done_iff.mpr ⟨rfl, h⟩, rfl⟩

/-- A missing character can always be something else. -/
theorem character_ne_fatal {d : Char} (t : Trace) : character d c ≠ .fatal t :=
  bind_ne_fatal lexeme_ne_fatal (fun _ _ _ h => by cases h) t

/-- The parser of a mark reads the mark with white space in front. -/
theorem reads_mark (k : Mark) : Reads (mark k.char) [] (Production.mark k) follow where
  derives h := by
    obtain ⟨g, m, hg, hgm, hm⟩ := gap_bind_eq_done h
    have hmn := fixed_eq_done_iff.mp hm
    exact ⟨[], rfl, .token (.inl (.mark hg)) (hgm.trans hmn)⟩
  done hd _ := by
    obtain ⟨rfl, w, hread, hover⟩ := Production.derives_token.mp hd
    cases hread.spelled nofun with
    | mark hg =>
      obtain ⟨m, hgm, hmn⟩ := hover.split
      have hm : m.rest.head?.any isGap = false := by
        rw [hmn.rest]
        cases k <;> rfl
      refine ⟨(), ?_, rfl⟩
      rw [mark, gap_bind hg hgm hm]
      exact fixed_eq_done_iff.mpr hmn

/-- Where a mark cannot begin, it is refused. -/
theorem refuses_mark (k : Mark) : Refuses (mark k.char) [.mark k.char] := by
  have hreads : Reads (mark k.char) [] (Production.mark k) [] := reads_mark k
  have hfirst : (Production.mark k).first = [.mark k.char] := by cases k <;> rfl
  rw [← hfirst]
  exact hreads.refuses rfl fun _ => gap_bind_ne_fatal fun _ => fixed_ne_fatal

/-! ## Lists and parentheses -/

variable [HasTrees α] {p : Parser α} {a : Production}
variable {spelling : Token → List Char → List Char → Prop}

/-- A list goes on with commas and ends where none follows. -/
theorem ReadsAs.list (h : ReadsAs spelling p [] a (.mark ',' :: follow))
    (hmark : ∀ {follow}, ReadsAs spelling (mark ',') [] (.mark .comma) follow)
    (hcomma : .mark ',' ∉ follow) :
    ReadsAs spelling (separatedBy (mark ',') p) [] (.list a) follow := by
  have hpart : ReadsAs spelling (mark ',' >>= fun _ => p) [] (.seq (.mark .comma) a)
      ((Production.seq (.mark .comma) a).first ++ follow) :=
    .bind hmark fun _ => h
  have hend : ∀ l ∈ follow, l ∉ (Production.seq (.mark .comma) a).first := by
    intro l hl hmem
    obtain rfl : l = .mark ',' := List.mem_singleton.mp hmem
    exact hcomma hl
  have hstart : Refuses (mark ',' >>= fun _ => p) [.mark ','] :=
    Refuses.bind (refuses_mark .comma)
  refine .bind (h.mono ?_) fun x => .bind (.many hpart hstart rfl hend) fun xs => reads_pure rfl
  exact fun l hl => hl

/-- The parser of a list reads its elements with commas between them. -/
theorem reads_list (h : Reads p [] a (.mark ',' :: follow)) (hcomma : .mark ',' ∉ follow) :
    Reads (separatedBy (mark ',') p) [] (.list a) follow :=
  h.list (reads_mark .comma) hcomma

/-- The parser of parentheses reads both and what stands between them. -/
theorem reads_parens (h : Reads p [] a [.mark ')']) :
    Reads (between (mark '(') (mark ')') p) [] (.parens a) follow :=
  .bind (reads_mark .openParen) fun _ => .bind h fun _ =>
    .bind (reads_mark .closeParen) fun _ => reads_pure (List.append_nil _).symm

/-! ## The end of the text -/

/-- The parser of white space reads the token of white space. -/
theorem reads_gap : Reads gap [] (.token .space) follow where
  derives h := by
    obtain ⟨g, hg, hover, hn⟩ := gap_eq_done_iff.mp h
    exact ⟨[], rfl, .token (.inl (.space hg hn)) hover⟩
  done hd _ := by
    obtain ⟨rfl, w, hread, hover⟩ := Production.derives_token.mp hd
    cases hread.spelled nofun with
    | space hg hn => exact ⟨(), gap_eq_done_iff.mpr ⟨w, hg, hover, hn⟩, rfl⟩

/-- The parser of the end of the text reads the token of the end. -/
theorem reads_endOfText : Reads endOfText [] (.token .stop) follow where
  derives {c v n} h := by
    unfold endOfText at h
    split at h
    next hc =>
      cases h
      have hnil : c.rest = [] := List.isEmpty_iff.mp hc
      refine ⟨[], rfl, .token (.inl ?_) (.refl c)⟩
      rw [hnil]
      exact .stop
    next => cases h
  done {c ys n} hd _ := by
    obtain ⟨rfl, w, hread, hover⟩ := Production.derives_token.mp hd
    have hstop := hread.spelled nofun
    generalize hr : n.rest = r at hstop
    cases hstop with
    | stop =>
      have hcn : n = c := by
        rw [hover.eq_advance]
        exact Cursor.advance_zero c
      subst hcn
      exact ⟨(), by rw [endOfText, hr]; rfl, rfl⟩

end AlterTable.Grammar
