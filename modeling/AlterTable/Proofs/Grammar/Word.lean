import AlterTable.Proofs.Grammar.Lexing

/-!
# Parsers of words

Keywords and names. A keyword is compared with the text letter by letter and takes as many bytes as
it has letters. The Kelvin sign is the one character besides ASCII letters that agrees with a
letter; of the keywords only `KEY` has a `k`, and a text on which the comparison then goes wrong is
refused, unless the sign is all that is left of it.
-/

namespace AlterTable.Grammar

open AlterTable.Parse
open AlterTable.Parse.Parser

variable {c n : Cursor} {follow : List Lead} {k : Keyword} {s t w r : List Char}

/-! ## Comparing letter by letter -/

/-- A letter that keywords consist of. -/
def isSmall (c : Char) : Bool :=
  c.isLower || c == '_'

private theorem foldCase_of_isSmall {x : Char} (h : isSmall x = true) : foldCase x = x := by
  have hk : x ≠ kelvinSign := by
    rintro rfl
    revert h
    decide
  rw [foldCase, if_neg hk]
  refine toLower_of_not_isUpper (Bool.eq_false_iff.mpr fun hu => ?_)
  have hupper := toNat_of_isUpper hu
  rw [isSmall, Bool.or_eq_true, beq_iff_eq] at h
  rcases h with hl | rfl
  · have hlower := toNat_of_isLower hl
    omega
  · revert hu
    decide

private theorem foldCase_of_ne {x : Char} (h : x ≠ kelvinSign) : foldCase x = x.toLower :=
  if_neg h

private theorem foldCase_kelvinSign : foldCase kelvinSign = 'k' := rfl

/-- A character with a small letter that keywords consist of is one byte long. -/
theorem utf8Size_of_isSmall_toLower {x : Char} (h : isSmall x.toLower = true) :
    x.utf8Size = 1 := by
  have hle : x.toNat ≤ 127 := by
    rcases isUpper_or_toLower x with hu | hsame
    · have hupper := toNat_of_isUpper hu
      omega
    · rw [hsame, isSmall, Bool.or_eq_true, beq_iff_eq] at h
      rcases h with hl | rfl
      · have hlower := toNat_of_isLower hl
        omega
      · decide
  rw [Char.utf8Size_eq_one_iff]
  exact UInt32.le_iff_toNat_le.mpr hle

private theorem byteLength_of_lower (h : ∀ x ∈ Text.lower w, isSmall x = true) :
    Text.byteLength w = w.length := by
  induction w with
  | nil => rfl
  | cons x w ih =>
    have hx := utf8Size_of_isSmall_toLower (h _ List.mem_cons_self)
    have hw := ih fun y hy => h y (List.mem_cons_of_mem _ hy)
    rw [Text.byteLength_cons, hx, hw, List.length_cons, Nat.add_comm]

/-- Without a Kelvin sign, what agrees with a word is the word in other letter case, as far as
both reach. -/
theorem lower_take_of_agrees (ht : ∀ y ∈ t, isSmall y = true) (h : agrees s t = true)
    (hk : kelvinSign ∉ s.take t.length) : Text.lower (s.take t.length) = t.take s.length := by
  induction t generalizing s with
  | nil => simp [Text.lower]
  | cons y t ih =>
    cases s with
    | nil => rfl
    | cons x s =>
      obtain ⟨hxy, hst⟩ := Bool.and_eq_true_iff.mp h
      obtain ⟨hx, hs⟩ := not_or.mp (mt List.mem_cons.mpr hk)
      have hlower : x.toLower = y := by
        rw [beq_iff_eq, foldCase_of_isSmall (ht y List.mem_cons_self),
          foldCase_of_ne (Ne.symm hx)] at hxy
        exact hxy
      have hrest := ih (fun z hz => ht z (List.mem_cons_of_mem _ hz)) hst hs
      rw [List.length_cons, List.take_succ_cons, List.length_cons, List.take_succ_cons, ← hrest,
        ← hlower]
      rfl

/-- A Kelvin sign agrees with no word that has no `k`. -/
theorem kelvinSign_notMem_of_agrees (ht : ∀ y ∈ t, isSmall y = true) (hk : 'k' ∉ t)
    (h : agrees s t = true) : kelvinSign ∉ s.take t.length := by
  induction t generalizing s with
  | nil => exact List.not_mem_nil
  | cons y t ih =>
    cases s with
    | nil => exact List.not_mem_nil
    | cons x s =>
      obtain ⟨hxy, hst⟩ := Bool.and_eq_true_iff.mp h
      obtain ⟨hy, htk⟩ := not_or.mp (mt List.mem_cons.mpr hk)
      rw [List.length_cons, List.take_succ_cons, List.mem_cons, not_or]
      refine ⟨?_, ih (fun z hz => ht z (List.mem_cons_of_mem _ hz)) htk hst⟩
      rintro rfl
      rw [beq_iff_eq, foldCase_of_isSmall (ht y List.mem_cons_self), foldCase_kelvinSign] at hxy
      exact hy hxy

/-- A text in the letters of a word agrees with it. -/
theorem agrees_of_lower (ht : ∀ y ∈ t, isSmall y = true) (h : Text.lower w = t) :
    agrees (w ++ r) t = true := by
  subst h
  induction w with
  | nil => cases r <;> rfl
  | cons x w ih =>
    have hx : isSmall x.toLower = true := ht _ List.mem_cons_self
    refine Bool.and_eq_true_iff.mpr ⟨?_, ih fun y hy => ht y (List.mem_cons_of_mem _ hy)⟩
    have hne : x ≠ kelvinSign := by
      rintro rfl
      revert hx
      decide
    rw [beq_iff_eq]
    show foldCase x = foldCase x.toLower
    rw [foldCase_of_isSmall hx, foldCase_of_ne hne]

/-! ## The width of a keyword -/

private theorem Keyword.isSmall_of_mem {y : Char} (h : y ∈ k.letters) : isSmall y = true :=
  List.all_eq_true.mp k.all_letters y h

/-- What spells a keyword has small letters only, once it is in lower case. -/
theorem Keyword.isSmall_lower {w : List Char} (h : Text.lower w = k.letters) :
    ∀ y ∈ Text.lower w, isSmall y = true :=
  fun _ hy => Keyword.isSmall_of_mem (h ▸ hy)

private theorem Keyword.byteLength_letters (k : Keyword) :
    Text.byteLength k.letters = k.letters.length := by
  cases k <;> decide

private theorem length_lower (w : List Char) : (Text.lower w).length = w.length :=
  List.length_map _

/-- A keyword takes the text that spells it. -/
theorem wordWidth?_of_lower (h : Text.lower w = k.letters) :
    wordWidth? k.letters (w ++ r) = some w.length := by
  have hbytes : Text.byteLength k.letters = Text.byteLength w := by
    rw [k.byteLength_letters, ← h, length_lower, byteLength_of_lower (Keyword.isSmall_lower h)]
  have hcovered : Text.charsCovering (Text.byteLength w) (w ++ r) = w.length := by
    have htake := Text.charsCovering_byteLength_take w.length (w ++ r)
    rw [List.take_left' rfl, List.length_append] at htake
    rw [htake]
    omega
  have hall : hasBytes (Text.byteLength w) (w ++ r) = true := by
    rw [hasBytes_iff, Text.byteLength_append]
    exact Nat.le_add_right _ _
  rw [wordWidth?, hbytes, hall, hcovered,
    agrees_of_lower (fun _ hy => Keyword.isSmall_of_mem hy) h]
  rfl

/-- Without a Kelvin sign in the way, what a keyword takes spells it. -/
theorem lower_take_of_wordWidth? {j : Nat} (h : wordWidth? k.letters s = some j)
    (hk : kelvinSign ∉ s.take k.letters.length) : Text.lower (s.take j) = k.letters := by
  unfold wordWidth? at h
  split at h
  next hyes =>
    cases h
    obtain ⟨hagrees, hbytes⟩ := Bool.and_eq_true_iff.mp hyes
    rw [k.byteLength_letters] at hbytes ⊢
    have hlower := lower_take_of_agrees (fun _ hy => Keyword.isSmall_of_mem hy) hagrees hk
    have hsmall : ∀ y ∈ Text.lower (s.take k.letters.length), isSmall y = true := by
      intro y hy
      rw [hlower] at hy
      exact Keyword.isSmall_of_mem (List.mem_of_mem_take hy)
    have hlength := byteLength_of_lower hsmall
    have hle : k.letters.length ≤ (s.take k.letters.length).length := by
      rw [← hlength]
      exact of_decide_eq_true hbytes
    have hlong : k.letters.length ≤ s.length := by
      rw [List.length_take] at hle
      omega
    have hcovered : Text.charsCovering k.letters.length s = k.letters.length := by
      have htake := Text.charsCovering_byteLength_take k.letters.length s
      rw [hlength, List.length_take] at htake
      rwa [Nat.min_eq_left hlong] at htake
    rw [hcovered, hlower, List.take_of_length_le hlong]
  next => cases h

/-- Of the keywords only one has the letter that a Kelvin sign stands for. -/
theorem Keyword.eq_key_of_mem (h : 'k' ∈ k.letters) : k = .key := by
  cases k <;> first | rfl | (revert h; decide)

/-- A letter that agrees with a small one is an identifier character. -/
theorem isIdentifierChar_of_foldCase {x y : Char} (hy : y.isLower = true)
    (h : foldCase x = y) : isIdentifierChar x = true := by
  by_cases hk : x = kelvinSign
  · rw [hk]
    decide
  · rw [foldCase_of_ne hk] at h
    rcases isUpper_or_toLower x with hu | hsame
    · exact isIdentifierChar_iff.mpr (.inl hu)
    · rw [hsame] at h
      exact isIdentifierChar_iff.mpr (.inr (.inl (h ▸ hy)))

/-- A Kelvin sign that agrees with the keyword `KEY` comes first, and then a letter if anything. -/
theorem key_of_kelvinSign (h : agrees s Keyword.key.letters = true)
    (hk : kelvinSign ∈ s.take Keyword.key.letters.length) :
    ∃ r, s = kelvinSign :: r ∧ (r = [] ∨ r.head?.any isIdentifierChar = true) := by
  have hletters : Keyword.key.letters = ['k', 'e', 'y'] := by decide
  rw [hletters] at h hk
  cases s with
  | nil => cases hk
  | cons x s =>
    obtain ⟨-, hs⟩ := Bool.and_eq_true_iff.mp h
    have hsmall : ['e', 'y'].all isSmall = true := by decide
    have htail : ∀ z ∈ s.take 2, z ≠ kelvinSign := by
      rintro z hz rfl
      exact kelvinSign_notMem_of_agrees (List.all_eq_true.mp hsmall) (by decide) hs hz
    obtain rfl | hmem := List.mem_cons.mp hk
    · refine ⟨s, rfl, ?_⟩
      cases s with
      | nil => exact .inl rfl
      | cons z s =>
        obtain ⟨hz, -⟩ := Bool.and_eq_true_iff.mp hs
        exact .inr (isIdentifierChar_of_foldCase (y := 'e') (by decide) (beq_iff_eq.mp hz))
    · exact absurd rfl (htail _ hmem)

/-- What a keyword takes where no identifier character follows: itself, or a Kelvin sign at the
end of the text. -/
theorem wordWidth?_eq_some {j : Nat} (h : wordWidth? k.letters s = some j)
    (hr : Ends (s.drop j)) :
    Text.lower (s.take j) = k.letters ∨ (k = .key ∧ s = [kelvinSign] ∧ j = 1) := by
  by_cases hk : kelvinSign ∈ s.take k.letters.length
  · right
    unfold wordWidth? at h
    split at h
    next hyes =>
      cases h
      obtain ⟨hagrees, -⟩ := Bool.and_eq_true_iff.mp hyes
      have hkey : k = .key := by
        refine Keyword.eq_key_of_mem (Decidable.by_contra fun hno => ?_)
        exact kelvinSign_notMem_of_agrees (fun _ hy => Keyword.isSmall_of_mem hy) hno hagrees hk
      subst hkey
      obtain ⟨r, rfl, rfl | hident⟩ := key_of_kelvinSign hagrees hk
      · exact ⟨rfl, rfl, rfl⟩
      · have hone :
            Text.charsCovering (Text.byteLength Keyword.key.letters) (kelvinSign :: r) = 1 := by
          cases r <;> rfl
        rw [hone] at hr
        exact absurd hident (Bool.eq_false_iff.mp hr)
    next => cases h
  · exact .inl (lower_take_of_wordWidth? h hk)

/-! ## Keywords -/

private theorem notAhead_eq_done_iff {p : Char → Bool} {u : Unit} :
    notAhead p c = .done u n ↔ n = c ∧ c.rest.head?.any p = false := by
  unfold notAhead
  split
  next h =>
    constructor
    · intro h'
      cases h'
    · rintro ⟨-, h'⟩
      exact absurd h (Bool.eq_false_iff.mp h')
  next h =>
    constructor
    · intro h'
      cases h'
      exact ⟨rfl, Bool.eq_false_iff.mpr h⟩
    · rintro ⟨rfl, -⟩
      rfl

private theorem notAhead_ne_fatal {p : Char → Bool} (t : Trace) : notAhead p c ≠ .fatal t := by
  unfold notAhead
  split <;> exact fun h => by cases h

/-- A word does not begin with white space. -/
theorem head?_any_isGap_of_isWord (hw : IsWord w) : (w ++ r).head?.any isGap = false := by
  obtain ⟨hne, hall⟩ := hw
  obtain ⟨d, w, rfl⟩ := List.exists_cons_of_ne_nil hne
  exact not_isGap_of_isIdentifierChar (hall d List.mem_cons_self)

/-- A keyword is read wherever it is accepted. -/
theorem keyword_done (hw : Token.Accepted (.keyword k) w n.rest) (hover : c.Over w n) :
    keyword k c = .done () n := by
  rcases hw with hw | ⟨hkey, hr, g, hg, rfl⟩
  · cases hw with
    | keyword hg hlower hends =>
      obtain ⟨m, hgm, hmn⟩ := hover.split
      have hm := hmn.rest ▸ head?_any_isGap_of_isWord (Keyword.isWord_of_lower hlower)
      rw [keyword, gap_bind hg hgm hm]
      exact bind_eq_done.mpr ⟨_, _, lexeme_done hmn (wordWidth?_of_lower hlower),
        notAhead_eq_done_iff.mpr ⟨rfl, hends⟩⟩
  · cases hkey
    obtain ⟨m, hgm, hmn⟩ := hover.split
    have hwidth : wordWidth? Keyword.key.letters ([kelvinSign] ++ n.rest) = some 1 := by
      rw [hr]
      decide
    rw [keyword, gap_bind hg hgm (by rw [hmn.rest]; rfl)]
    exact bind_eq_done.mpr ⟨_, _, lexeme_done hmn hwidth,
      notAhead_eq_done_iff.mpr ⟨rfl, by rw [hr]; rfl⟩⟩

/-- The parser of a keyword reads the keyword with white space in front. -/
theorem reads_keyword (k : Keyword) : Reads (keyword k) [] (Production.keyword k) follow where
  derives {c v n} h := by
    obtain ⟨g, m, hg, hgm, hm⟩ := gap_bind_eq_done h
    obtain ⟨w, n', hw, hn⟩ := bind_eq_done.mp hm
    obtain ⟨rfl, hends⟩ := notAhead_eq_done_iff.mp hn
    obtain ⟨hover, j, hj, hwj⟩ := over_of_lexeme hw
    have hdrop : n.rest = m.rest.drop j := by
      have happ : m.rest.take j ++ n.rest = m.rest.take j ++ m.rest.drop j := by
        rw [List.take_append_drop, ← hwj, ← hover.rest]
      exact List.append_cancel_left happ
    rcases wordWidth?_eq_some hj (hdrop ▸ hends) with hlower | ⟨rfl, hs, rfl⟩
    · exact ⟨[], rfl, .token (.inl (.keyword hg (hwj ▸ hlower) hends)) (hgm.trans hover)⟩
    · rw [hs] at hwj hdrop
      subst hwj
      exact ⟨[], rfl, .token (.inr ⟨rfl, hdrop, g, hg, rfl⟩) (hgm.trans hover)⟩
  done hd _ := by
    obtain ⟨rfl, w, hw, hover⟩ := Production.derives_token.mp hd
    exact ⟨(), keyword_done hw.1 hover, rfl⟩

/-- A missing keyword can always be something else. -/
theorem keyword_ne_fatal (t : Trace) : keyword k c ≠ .fatal t :=
  gap_bind_ne_fatal (fun _ => bind_ne_fatal lexeme_ne_fatal fun _ _ => notAhead_ne_fatal) t

/-- Where a keyword cannot begin, it is refused. -/
theorem refuses_keyword (k : Keyword) : Refuses (keyword k) (Production.keyword k).first := by
  have hreads : Reads (keyword k) [] (Production.keyword k) [] := reads_keyword k
  exact hreads.refuses rfl fun _ => keyword_ne_fatal

/-- The parser of several keywords reads them one behind the other. -/
theorem reads_keywords (ks : List Keyword) :
    Reads (keywords ks) [] (Production.keywords ks) follow := by
  induction ks with
  | nil => exact reads_pure rfl
  | cons k ks ih => exact .bind (reads_keyword k) fun _ => ih

/-! ## Names -/

private theorem quotedName_eq_done_iff {u : Unit} :
    quotedName c = .done u n ↔ ∃ w, IsQuotedName w ∧ c.Over w n := by
  rw [quotedName, bind_eq_done]
  simp only [bind_eq_done, character_eq_done_iff, lexeme_run_eq_done_iff]
  constructor
  · rintro ⟨-, m, hopen, q, m', ⟨hq, hne, hall, -⟩, hclose⟩
    refine ⟨_, ⟨q, hne, fun hmem => ?_, rfl⟩, hopen.trans (hq.trans hclose)⟩
    simpa using hall _ hmem
  · rintro ⟨w, ⟨q, hne, hq, rfl⟩, hover⟩
    obtain ⟨m, hopen, hrest⟩ := Cursor.Over.split (v := [Text.backQuote]) hover
    obtain ⟨m', hmid, hclose⟩ := hrest.split
    refine ⟨(), m, hopen, q, m', ⟨hmid, hne, fun d hd => ?_, ?_⟩, hclose⟩
    · rw [bne_iff_ne]
      rintro rfl
      exact hq hd
    · rw [hclose.rest]
      rfl

private theorem quotedName_ne_fatal (t : Trace) : quotedName c ≠ .fatal t :=
  bind_ne_fatal character_ne_fatal
    (fun _ _ => bind_ne_fatal lexeme_ne_fatal fun _ _ => character_ne_fatal) t

private theorem accepting_eq_done_iff {α : Type} {p : Parser α} {test : α → Bool} {a : α} :
    accepting p test c = .done a n ↔ p c = .done a n ∧ test a = true := by
  unfold accepting
  cases hp : p c with
  | done b m =>
    by_cases hb : test b = true
    · simp only [hb, if_true]
      constructor
      · intro h
        cases h
        exact ⟨rfl, hb⟩
      · exact fun h => h.1
    · simp only [hb, Bool.false_eq_true, if_false]
      constructor
      · intro h
        cases h
      · rintro ⟨h, ha⟩
        cases h
        exact absurd ha hb
  | refused t => exact ⟨fun h => (by cases h), fun h => h.1⟩
  | fatal t => exact ⟨fun h => (by cases h), fun h => h.1⟩

private theorem bareName_eq_done_iff {u : Unit} : bareName c = .done u n ↔
    ∃ w, IsWord w ∧ Keyword.reserves w = false ∧ Ends n.rest ∧ c.Over w n := by
  rw [bareName, bind_eq_done]
  simp only [accepting_eq_done_iff, bareWord, lexeme_run_eq_done_iff, Bool.not_eq_true']
  constructor
  · rintro ⟨w, m, ⟨⟨hover, hne, hall, hends⟩, hfree⟩, h⟩
    cases h
    exact ⟨w, ⟨hne, hall⟩, hfree, hends, hover⟩
  · rintro ⟨w, ⟨hne, hall⟩, hfree, hends, hover⟩
    exact ⟨w, n, ⟨⟨hover, hne, hall, hends⟩, hfree⟩, rfl⟩

private theorem bareName_ne_fatal (t : Trace) : bareName c ≠ .fatal t := by
  refine bind_ne_fatal (fun t => ?_) (fun _ _ _ h => by cases h) t
  unfold accepting
  split
  next => split <;> exact fun h => by cases h
  next => exact lexeme_ne_fatal t

/-- What two names begin with tells whether they are quoted. -/
theorem head?_any_isGap_of_isQuotedName (hw : IsQuotedName w) :
    (w ++ r).head?.any isGap = false := by
  obtain ⟨q, -, -, rfl⟩ := hw
  rfl

private theorem not_isQuotedName_of_isWord {w' r' : List Char} (hw : IsWord w)
    (hw' : IsQuotedName w') : w ++ r ≠ w' ++ r' := by
  obtain ⟨hne, hall⟩ := hw
  obtain ⟨d, w, rfl⟩ := List.exists_cons_of_ne_nil hne
  obtain ⟨q, -, -, rfl⟩ := hw'
  intro h
  have hd : d = Text.backQuote := (List.cons.inj h).1
  have := hd ▸ hall d List.mem_cons_self
  revert this
  decide

/-- The parser of identifiers reads the token, quoted or bare. -/
theorem reads_identifier : Reads identifier [] (.token .identifier) follow where
  derives {c v n} h := by
    obtain ⟨g, m, hg, hgm, hm⟩ := gap_bind_eq_done h
    obtain ⟨p, hp, hpm⟩ := exists_of_choiceAfter hm
    simp only [List.mem_cons, List.not_mem_nil, or_false] at hp
    rcases hp with rfl | rfl
    · obtain ⟨w, hw, hover⟩ := quotedName_eq_done_iff.mp hpm
      exact ⟨[], rfl, .token (.inl (.quotedName hg hw)) (hgm.trans hover)⟩
    · obtain ⟨w, hw, hfree, hends, hover⟩ := bareName_eq_done_iff.mp hpm
      exact ⟨[], rfl, .token (.inl (.bareName hg hw hfree hends)) (hgm.trans hover)⟩
  done {c ys n} hd _ := by
    obtain ⟨rfl, w, hread, hover⟩ := Production.derives_token.mp hd
    refine ⟨(), ?_, rfl⟩
    cases hread.spelled nofun with
    | quotedName hg hw =>
      obtain ⟨m, hgm, hmn⟩ := hover.split
      rw [identifier, gap_bind hg hgm (hmn.rest ▸ head?_any_isGap_of_isQuotedName hw)]
      exact choiceAfter_of_done (quotedName_eq_done_iff.mpr ⟨_, hw, hmn⟩) _
    | bareName hg hw hfree hends =>
      obtain ⟨m, hgm, hmn⟩ := hover.split
      have hunquoted : ∀ u n', quotedName m ≠ .done u n' := by
        intro u n' h
        obtain ⟨w', hw', hover'⟩ := quotedName_eq_done_iff.mp h
        exact not_isQuotedName_of_isWord hw hw' (hmn.rest.symm.trans hover'.rest)
      obtain ⟨t, ht⟩ := exists_refused hunquoted quotedName_ne_fatal
      rw [identifier, gap_bind hg hgm (hmn.rest ▸ head?_any_isGap_of_isWord hw)]
      rw [choice, choiceAfter_of_refused ht]
      exact choiceAfter_of_done (bareName_eq_done_iff.mpr ⟨_, hw, hfree, hends, hmn⟩) _

private theorem identifier_ne_fatal (t : Trace) : identifier c ≠ .fatal t := by
  refine gap_bind_ne_fatal (fun m => choiceAfter_ne_fatal fun p hp => ?_) t
  simp only [List.mem_cons, List.not_mem_nil, or_false] at hp
  rcases hp with rfl | rfl
  · exact quotedName_ne_fatal
  · exact bareName_ne_fatal

/-- Where no identifier can begin, none is read. -/
theorem refuses_identifier : Refuses identifier Token.identifier.first := by
  have hreads : Reads identifier [] (.token .identifier) [] := reads_identifier
  exact hreads.refuses rfl fun _ => identifier_ne_fatal

end AlterTable.Grammar
