import AlterTable.Proofs.Grammar.Word

/-!
# Parsers of numbers and strings

The content of a string is written with every quote twice, so that the quote which ends it is the
one that no other quote follows (`string_eq_done_iff`). A number goes on with every digit, and with
a point where a digit follows it.
-/

namespace AlterTable.Grammar

open AlterTable.Parse
open AlterTable.Parse.Parser

variable {c n : Cursor} {follow : List Lead} {s s' w r r' : List Char}

/-! ## The end of a string -/

/-- The text ends or goes on with a single quote. -/
def Closes (r : List Char) : Prop :=
  r = [] ∨ ∃ r', r = quote :: r' ∧ r'.head? ≠ some quote

/-- Two contents are escaped one behind the other. -/
theorem escape_append (s s' : List Char) : escape (s ++ s') = escape s ++ escape s' :=
  List.flatMap_append

private theorem escape_quote_cons (s : List Char) :
    escape (quote :: s) = quote :: quote :: escape s := rfl

private theorem escape_cons {d : Char} (h : d ≠ quote) (s : List Char) :
    escape (d :: s) = d :: escape s := by
  rw [escape, List.flatMap_cons, if_neg h]
  rfl

/-- Without a quote in it, a content is its own escaped form. -/
theorem escape_of_ne (h : ∀ d ∈ s, d ≠ quote) : escape s = s := by
  induction s with
  | nil => rfl
  | cons d s ih =>
    rw [escape_cons (h d List.mem_cons_self), ih fun e he => h e (List.mem_cons_of_mem _ he)]

/-- Where the content of a string goes on, the string does not end. -/
theorem not_closes_escape_cons (d : Char) (s r : List Char) : ¬ Closes (escape (d :: s) ++ r) := by
  rintro (h | ⟨r', h, hr'⟩)
  · by_cases hd : d = quote
    · subst hd
      cases h
    · rw [escape_cons hd] at h
      cases h
  · by_cases hd : d = quote
    · subst hd
      rw [escape_quote_cons] at h
      cases h
      exact hr' rfl
    · rw [escape_cons hd] at h
      exact hd (List.cons.inj h).1

/-- A text is written content up to a single quote in one way only. -/
theorem escape_append_inj (h : escape s ++ r = escape s' ++ r') (hr : Closes r)
    (hr' : Closes r') : s = s' ∧ r = r' := by
  induction s generalizing s' with
  | nil =>
    cases s' with
    | nil => exact ⟨rfl, h⟩
    | cons d s' =>
      have hclosed : Closes (escape (d :: s') ++ r') := h ▸ hr
      exact absurd hclosed (not_closes_escape_cons d s' r')
  | cons d s ih =>
    cases s' with
    | nil =>
      have hclosed : Closes (escape (d :: s) ++ r) := h ▸ hr'
      exact absurd hclosed (not_closes_escape_cons d s r)
    | cons d' s' =>
      by_cases hd : d = quote
      · subst hd
        by_cases hd' : d' = quote
        · subst hd'
          rw [escape_quote_cons, escape_quote_cons] at h
          obtain ⟨rfl, rfl⟩ := ih (List.cons.inj (List.cons.inj h).2).2
          exact ⟨rfl, rfl⟩
        · rw [escape_quote_cons, escape_cons hd'] at h
          exact absurd (List.cons.inj h).1.symm hd'
      · by_cases hd' : d' = quote
        · subst hd'
          rw [escape_quote_cons, escape_cons hd] at h
          exact absurd (List.cons.inj h).1 hd
        · rw [escape_cons hd, escape_cons hd'] at h
          obtain ⟨hh, ht⟩ := List.cons.inj h
          obtain ⟨rfl, rfl⟩ := ih ht
          exact ⟨by rw [hh], rfl⟩

/-! ## Strings -/

/-- A part of the content of a string. -/
def stringPart : Parser Unit :=
  choice
    [do let _ ← lexeme .otherThan (runWidth? (· != quote)),
     fixed [quote, quote]]

/-- A part is content, and some of it. -/
theorem over_of_stringPart {u : Unit} (h : stringPart c = .done u n) :
    ∃ s, s ≠ [] ∧ c.Over (escape s) n := by
  obtain ⟨p, hp, hpc⟩ := exists_of_choiceAfter h
  simp only [List.mem_cons, List.not_mem_nil, or_false] at hp
  rcases hp with rfl | rfl
  · obtain ⟨v, m, hv, hm⟩ := bind_eq_done.mp hpc
    cases hm
    obtain ⟨hover, hne, hall, -⟩ := lexeme_run_eq_done_iff.mp hv
    refine ⟨v, hne, ?_⟩
    rwa [escape_of_ne fun d hd => bne_iff_ne.mp (hall d hd)]
  · exact ⟨[quote], List.cons_ne_nil _ _, fixed_eq_done_iff.mp hpc⟩

private theorem stringPart_ne_fatal (t : Trace) : stringPart c ≠ .fatal t := by
  refine choiceAfter_ne_fatal (fun p hp => ?_) t
  simp only [List.mem_cons, List.not_mem_nil, or_false] at hp
  rcases hp with rfl | rfl
  · exact bind_ne_fatal lexeme_ne_fatal fun _ _ _ h => by cases h
  · exact fixed_ne_fatal

/-- Where there is no further part, the content ends. -/
theorem closes_of_stringPart {t : Trace} (h : stringPart c = .refused t) : Closes c.rest := by
  have hall := exists_refused_of_choiceAfter h
  obtain ⟨_, hrun⟩ := hall _ List.mem_cons_self
  obtain ⟨_, htwice⟩ := hall _ (List.mem_cons_of_mem _ List.mem_cons_self)
  have hno := width?_eq_none hrun
  have hno' := width?_eq_none htwice
  cases hc : c.rest with
  | nil => exact .inl rfl
  | cons d r =>
    rw [hc] at hno hno'
    have hd : d = quote := by
      refine Decidable.by_contra fun hd => ?_
      have hrun : (d != quote) = true := bne_iff_ne.mpr hd
      simp only [runWidth?, List.takeWhile_cons, hrun, if_true] at hno
      cases hno
    subst hd
    refine .inr ⟨r, rfl, fun hr => ?_⟩
    cases r with
    | nil => cases hr
    | cons d r =>
      cases hr
      cases hno'

/-- The content of a string is read up to where it ends. -/
theorem exists_many_stringPart (c : Cursor) : ∃ l m s,
    many stringPart c = .done l m ∧ c.Over (escape s) m ∧ Closes m.rest := by
  fun_induction many stringPart c with
  | case1 c u m hpart _ l last hmany ih =>
    obtain ⟨l', m', s, hdone, hover, hclosed⟩ := ih
    obtain ⟨s', -, hover'⟩ := over_of_stringPart hpart
    rw [hmany] at hdone
    cases hdone
    exact ⟨_, _, s' ++ s, rfl, escape_append s' s ▸ hover'.trans hover, hclosed⟩
  | case2 c u m _ _ t hmany ih =>
    obtain ⟨_, _, _, hdone, -⟩ := ih
    rw [hmany] at hdone
    cases hdone
  | case3 c u m _ _ t hmany ih =>
    obtain ⟨_, _, _, hdone, -⟩ := ih
    rw [hmany] at hdone
    cases hdone
  | case4 c u m hpart hstuck =>
    obtain ⟨s, hne, hover⟩ := over_of_stringPart hpart
    obtain ⟨d, s, rfl⟩ := List.exists_cons_of_ne_nil hne
    refine absurd ?_ hstuck
    rw [hover.rest, List.length_append]
    by_cases hd : d = quote
    · subst hd
      simp [escape_quote_cons]
    · simp [escape_cons hd]
  | case5 c t hpart => exact ⟨_, c, [], rfl, .refl c, closes_of_stringPart hpart⟩
  | case6 c t hpart => exact absurd hpart (stringPart_ne_fatal t)

/-- A string is read where one stands that no quote follows. -/
theorem string_eq_done_iff {u : Unit} :
    string c = .done u n ↔ ∃ s, c.Over (stringText s) n ∧ n.rest.head? ≠ some quote := by
  have hstring : string = (do
    character quote
    let _ ← many stringPart
    character quote) := rfl
  rw [hstring, bind_eq_done]
  simp only [bind_eq_done, character_eq_done_iff]
  constructor
  · rintro ⟨-, m, hopen, l, m', hmany, hclose⟩
    obtain ⟨l', m'', s, hdone, hover, hclosed⟩ := exists_many_stringPart m
    rw [hmany] at hdone
    cases hdone
    refine ⟨s, hopen.trans (hover.trans hclose), ?_⟩
    obtain hnil | ⟨r, hr, hhead⟩ := hclosed
    · rw [hclose.rest] at hnil
      cases hnil
    · have hrest : n.rest = r := (List.cons.inj (hclose.rest.symm.trans hr)).2
      rwa [hrest]
  · rintro ⟨s, hover, hhead⟩
    obtain ⟨m, hopen, hrest⟩ := Cursor.Over.split (v := [quote]) hover
    obtain ⟨m', hmid, hclose⟩ := hrest.split
    obtain ⟨l, m'', s', hdone, hover', hclosed⟩ := exists_many_stringPart m
    have hclosed' : Closes m'.rest := .inr ⟨n.rest, hclose.rest, hhead⟩
    have hsame := escape_append_inj (hover'.rest.symm.trans hmid.rest) hclosed hclosed'
    obtain rfl := hover'.eq_of_rest hmid hsame.2
    exact ⟨(), m, hopen, l, m'', hdone, hclose⟩

/-- A missing string can always be something else. -/
theorem string_ne_fatal (t : Trace) : string c ≠ .fatal t := by
  refine bind_ne_fatal character_ne_fatal (fun _ m => bind_ne_fatal ?_ ?_) t
  · intro t h
    obtain ⟨l, n, s, hdone, -⟩ := exists_many_stringPart m
    exact absurd (hdone.symm.trans h) (fun h => by cases h)
  · exact fun _ _ => character_ne_fatal

/-! ## Numbers -/

/-- Digits are read where they stand, all that there are. -/
theorem digits_eq_done_iff {u : Unit} : digits c = .done u n ↔
    ∃ w, IsDigits w ∧ c.Over w n ∧ n.rest.head?.any Char.isDigit = false := by
  rw [digits, bind_eq_done]
  simp only [lexeme_run_eq_done_iff]
  constructor
  · rintro ⟨w, m, ⟨hover, hne, hall, hr⟩, h⟩
    cases h
    exact ⟨w, ⟨hne, hall⟩, hover, hr⟩
  · rintro ⟨w, ⟨hne, hall⟩, hover, hr⟩
    exact ⟨w, n, ⟨hover, hne, hall, hr⟩, rfl⟩

private theorem digits_ne_fatal (t : Trace) : digits c ≠ .fatal t :=
  bind_ne_fatal lexeme_ne_fatal (fun _ _ _ h => by cases h) t

private theorem isDigits_append_ne {d : Char} (hw : IsDigits w) (hd : d.isDigit = false) :
    w ++ r ≠ d :: r' := by
  obtain ⟨hne, hall⟩ := hw
  obtain ⟨e, w, rfl⟩ := List.exists_cons_of_ne_nil hne
  intro h
  have he := hall e List.mem_cons_self
  rw [(List.cons.inj h).1, hd] at he
  cases he

/-- What the number parser takes is a number. -/
theorem isNumber_of_number {u : Unit} (h : number c = .done u n) :
    ∃ w, IsNumber w ∧ c.Over w n := by
  rw [number, bind_eq_done] at h
  obtain ⟨sign, m, hsign, h⟩ := h
  obtain ⟨_, m', hwhole, h⟩ := bind_eq_done.mp h
  obtain ⟨fraction, n', hfraction, h⟩ := bind_eq_done.mp h
  cases h
  obtain ⟨whole, hdigits, hover, -⟩ := digits_eq_done_iff.mp hwhole
  have hfront : ∃ v, (v = [] ∨ v = ['-']) ∧ c.Over v m := by
    rcases maybe_eq_done_iff.mp hsign with ⟨_, -, hminus⟩ | ⟨-, rfl, -⟩
    · exact ⟨_, .inr rfl, character_eq_done_iff.mp hminus⟩
    · exact ⟨[], .inl rfl, .refl _⟩
  have hback : ∃ v, (v = [] ∨ ∃ d, IsDigits d ∧ v = '.' :: d) ∧ m'.Over v n := by
    rcases maybe_eq_done_iff.mp hfraction with ⟨_, -, hpoint⟩ | ⟨-, rfl, -⟩
    · obtain ⟨_, k, hdot, hmore⟩ := bind_eq_done.mp hpoint
      obtain ⟨d, hd, hover', -⟩ := digits_eq_done_iff.mp hmore
      exact ⟨_, .inr ⟨d, hd, rfl⟩, (character_eq_done_iff.mp hdot).trans hover'⟩
    · exact ⟨[], .inl rfl, .refl _⟩
  obtain ⟨v, hv, hcm⟩ := hfront
  obtain ⟨w, hw, hmn⟩ := hback
  exact ⟨_, ⟨v, whole, w, rfl, hv, hdigits, hw⟩, (hcm.trans hover).trans hmn⟩

/-- A number is taken where neither a digit nor a point follows it. -/
theorem number_done (hw : IsNumber w) (h : c.Over w n)
    (hdigit : n.rest.head?.any Char.isDigit = false) (hpoint : n.rest.head? ≠ some '.') :
    number c = .done () n := by
  obtain ⟨sign, whole, fraction, rfl, hsign, hwhole, hfraction⟩ := hw
  obtain ⟨m', hfront, hback⟩ := h.split
  obtain ⟨m, hcm, hmm⟩ := hfront.split
  have hminus : ∃ o, maybe (character '-') c = .done o m := by
    rcases hsign with rfl | rfl
    · obtain rfl := hcm.eq_of_rest (.refl c) hcm.rest.symm
      refine ⟨none, maybe_eq_done_iff.mpr (.inr ⟨rfl, rfl, ?_⟩)⟩
      refine exists_refused (fun u k hk => ?_) character_ne_fatal
      have hrest := (character_eq_done_iff.mp hk).rest
      exact isDigits_append_ne hwhole (by decide) (hmm.rest.symm.trans hrest)
    · exact ⟨some (), maybe_eq_done_iff.mpr (.inl ⟨(), rfl, character_eq_done_iff.mpr hcm⟩)⟩
  have hpart : ∃ o, maybe (do character '.'; digits) m' = .done o n ∧
      m'.rest.head?.any Char.isDigit = false := by
    rcases hfraction with rfl | ⟨d, hd, rfl⟩
    · obtain rfl := hback.eq_of_rest (.refl m') hback.rest.symm
      refine ⟨none, maybe_eq_done_iff.mpr (.inr ⟨rfl, rfl, ?_⟩), hdigit⟩
      refine exists_refused (fun u k hk => ?_) ?_
      · obtain ⟨_, k', hdot, -⟩ := bind_eq_done.mp hk
        rw [(character_eq_done_iff.mp hdot).rest] at hpoint
        exact hpoint rfl
      · exact bind_ne_fatal character_ne_fatal fun _ _ => digits_ne_fatal
    · obtain ⟨k, hdot, hmore⟩ := Cursor.Over.split (v := ['.']) hback
      refine ⟨some (), maybe_eq_done_iff.mpr (.inl ⟨(), rfl, ?_⟩), ?_⟩
      · exact bind_eq_done.mpr ⟨(), k, character_eq_done_iff.mpr hdot,
          digits_eq_done_iff.mpr ⟨d, hd, hmore, hdigit⟩⟩
      · rw [hdot.rest]
        rfl
  obtain ⟨o, ho⟩ := hminus
  obtain ⟨o', ho', hr⟩ := hpart
  exact bind_eq_done.mpr ⟨o, m, ho, bind_eq_done.mpr
    ⟨(), m', digits_eq_done_iff.mpr ⟨whole, hwhole, hmm, hr⟩,
      bind_eq_done.mpr ⟨o', n, ho', rfl⟩⟩⟩

/-- Where a digit stands the number parser takes something. -/
theorem exists_number_eq_done {d : Char} (hc : c.rest = d :: r) (hd : d.isDigit = true) :
    ∃ n, number c = .done () n := by
  have hminus : ∃ t, character '-' c = .refused t := by
    refine exists_refused (fun u k hk => ?_) character_ne_fatal
    have hrest := (character_eq_done_iff.mp hk).rest
    rw [hc] at hrest
    cases hrest
    cases hd
  have hdigits : ∃ u m, digits c = .done u m := by
    cases h : digits c with
    | done u m => exact ⟨u, m, rfl⟩
    | refused t =>
      have hno := width?_eq_none h
      simp only [hc, runWidth?, List.takeWhile_cons, hd, if_true] at hno
      cases hno
    | fatal t => exact absurd h (digits_ne_fatal t)
  obtain ⟨u, m, hm⟩ := hdigits
  obtain ⟨o, n, hn⟩ := exists_maybe_eq_done (c := m) (p := do character '.'; digits)
    (bind_ne_fatal character_ne_fatal fun _ _ => digits_ne_fatal)
  exact ⟨n, bind_eq_done.mpr ⟨none, c, maybe_eq_done_iff.mpr (.inr ⟨rfl, rfl, hminus⟩),
    bind_eq_done.mpr ⟨u, m, hm, bind_eq_done.mpr ⟨o, n, hn, rfl⟩⟩⟩⟩

private theorem number_ne_fatal (t : Trace) : number c ≠ .fatal t := by
  refine bind_ne_fatal (maybe_ne_fatal character_ne_fatal) (fun _ _ => ?_) t
  refine bind_ne_fatal digits_ne_fatal fun _ _ => ?_
  refine bind_ne_fatal (maybe_ne_fatal ?_) fun _ _ _ h => by cases h
  exact bind_ne_fatal character_ne_fatal fun _ _ => digits_ne_fatal

/-! ## Where numbers and strings end -/

private theorem lead_of_digit (h : r.head?.any Char.isDigit = true) : lead r = .number := by
  cases r with
  | nil => cases h
  | cons d r =>
    have hd : d.isDigit = true := h
    rw [← List.singleton_append]
    exact Token.lead_digits ⟨List.cons_ne_nil _ _, fun e he => List.mem_singleton.mp he ▸ hd⟩ r

private theorem lead_of_head? {d : Char} (hg : isGap d = false) (hi : isIdentifierChar d = false)
    (h : r.head? = some d) : lead r = .mark d := by
  cases r with
  | nil => cases h
  | cons e r =>
    cases h
    exact lead_mark hg hi r

/-- A number is not followed by a digit or a point, nor a string by a quote. -/
structure Separates (follow : List Lead) : Prop where
  digit : .number ∉ follow
  point : .mark '.' ∉ follow
  quoteMark : .mark quote ∉ follow

instance (follow : List Lead) : Decidable (Separates follow) :=
  decidable_of_iff (.number ∉ follow ∧ .mark '.' ∉ follow ∧ .mark quote ∉ follow)
    ⟨fun ⟨h, h', h''⟩ => ⟨h, h', h''⟩, fun ⟨h, h', h''⟩ => ⟨h, h', h''⟩⟩

namespace Separates

variable (hf : Separates follow) (hr : lead r ∈ follow)

include hf hr

private theorem not_isDigit : r.head?.any Char.isDigit = false := by
  refine Bool.eq_false_iff.mpr fun h => hf.digit ?_
  rwa [← lead_of_digit h]

private theorem ne_point : r.head? ≠ some '.' := by
  intro h
  refine hf.point ?_
  rwa [← lead_of_head? (by decide) (by decide) h]

private theorem ne_quote : r.head? ≠ some quote := by
  intro h
  refine hf.quoteMark ?_
  rwa [← lead_of_head? (by decide) (by decide) h]

end Separates

/-! ## Tokens -/

/-- The parser of digits reads the token of digits, if no number follows. -/
theorem reads_digits (hf : .number ∉ follow) :
    Reads (do gap; digits) [] (.token .digits) follow where
  derives h := by
    obtain ⟨g, m, hg, hgm, hm⟩ := gap_bind_eq_done h
    obtain ⟨w, hw, hover, -⟩ := digits_eq_done_iff.mp hm
    exact ⟨[], rfl, .token (.inl (.digits hg hw)) (hgm.trans hover)⟩
  done {c ys n} hd hn := by
    obtain ⟨rfl, w, hread, hover⟩ := Production.derives_token.mp hd
    cases hread.spelled nofun with
    | @digits g w _ hg hw =>
      obtain ⟨m, hgm, hmn⟩ := hover.split
      have hm : m.rest.head?.any isGap = false := by
        rw [hmn.rest]
        exact head?_any_isGap_of_isWord ⟨hw.1, fun d hd => isIdentifierChar_of_isDigit (hw.2 d hd)⟩
      have hr : n.rest.head?.any Char.isDigit = false :=
        Bool.eq_false_iff.mpr fun h => hf (lead_of_digit h ▸ hn)
      refine ⟨(), ?_, rfl⟩
      rw [gap_bind hg hgm hm]
      exact digits_eq_done_iff.mpr ⟨w, hw, hmn, hr⟩

/-- The parser of strings reads the token of strings, if what follows is apart from it. -/
theorem reads_string (hf : Separates follow) :
    Reads (do gap; string) [] (.token .string) follow where
  derives h := by
    obtain ⟨g, m, hg, hgm, hm⟩ := gap_bind_eq_done h
    obtain ⟨s, hover, -⟩ := string_eq_done_iff.mp hm
    exact ⟨[], rfl, .token (.inl (.string hg)) (hgm.trans hover)⟩
  done {c ys n} hd hn := by
    obtain ⟨rfl, w, hread, hover⟩ := Production.derives_token.mp hd
    cases hread.spelled nofun with
    | @string g s _ hg =>
      obtain ⟨m, hgm, hmn⟩ := hover.split
      refine ⟨(), ?_, rfl⟩
      rw [gap_bind hg hgm (by rw [hmn.rest]; rfl)]
      exact string_eq_done_iff.mpr ⟨s, hmn, hf.ne_quote hn⟩

/-- A number begins with a digit or a minus sign. -/
theorem IsNumber.exists_cons (h : IsNumber w) :
    ∃ d w', w = d :: w' ∧ (d = '-' ∨ d.isDigit = true) := by
  obtain ⟨sign, whole, fraction, rfl, rfl | rfl, ⟨hne, hall⟩, -⟩ := h
  · obtain ⟨d, whole, rfl⟩ := List.exists_cons_of_ne_nil hne
    exact ⟨d, _, rfl, .inr (hall d List.mem_cons_self)⟩
  · exact ⟨'-', _, rfl, .inl rfl⟩

private theorem string_refused (h : c.rest.head? ≠ some quote) : ∃ t, string c = .refused t := by
  refine exists_refused (fun u n hdone => h ?_) string_ne_fatal
  obtain ⟨s, hover, -⟩ := string_eq_done_iff.mp hdone
  rw [hover.rest]
  rfl

/-- What begins with neither a sign nor a digit is no number. -/
theorem number_refused {d : Char} (hc : c.rest = d :: r) (hd : d ≠ '-')
    (hdigit : d.isDigit = false) : ∃ t, number c = .refused t := by
  refine exists_refused (fun u n hdone => ?_) number_ne_fatal
  obtain ⟨w, hw, hover⟩ := isNumber_of_number hdone
  obtain ⟨e, w', rfl, he⟩ := hw.exists_cons
  have hde : d = e := (List.cons.inj (hc.symm.trans hover.rest)).1
  subst hde
  rcases he with he | he
  · exact hd he
  · rw [hdigit] at he
    cases he

private theorem bareWord_eq_done_iff :
    bareWord c = .done w n ↔ IsWord w ∧ Ends n.rest ∧ c.Over w n := by
  rw [bareWord, lexeme_run_eq_done_iff]
  constructor
  · rintro ⟨hover, hne, hall, hends⟩
    exact ⟨⟨hne, hall⟩, hends, hover⟩
  · rintro ⟨⟨hne, hall⟩, hends, hover⟩
    exact ⟨hover, hne, hall, hends⟩

private theorem literal_done_string (hg : Gap g) (hgm : c.Over g m) (hs : string m = .done () n) :
    literal c = .done () n := by
  obtain ⟨s, hover, -⟩ := string_eq_done_iff.mp hs
  rw [literal, gap_bind hg hgm (by rw [hover.rest]; rfl)]
  exact choiceAfter_of_done hs _

private theorem literal_done_number (hg : Gap g) (hgm : c.Over g m) (hw : IsNumber w)
    (hmn : m.Over w n) (hnumber : number m = .done () n) : literal c = .done () n := by
  obtain ⟨d, w', rfl, hd⟩ := hw.exists_cons
  have hm : isGap d = false ∧ d ≠ quote := by
    rcases hd with rfl | hd
    · decide
    · refine ⟨not_isGap_of_isIdentifierChar (isIdentifierChar_of_isDigit hd), ?_⟩
      rintro rfl
      cases hd
  have hstring : ∃ t, string m = .refused t := by
    refine string_refused ?_
    rw [hmn.rest]
    exact fun h => hm.2 (Option.some.inj h)
  obtain ⟨t, ht⟩ := hstring
  rw [literal, gap_bind hg hgm (by rw [hmn.rest]; exact hm.1), choice, choiceAfter_of_refused ht]
  exact choiceAfter_of_done hnumber _

private theorem literal_done_word (hg : Gap g) (hgm : c.Over g m) (hw : IsWord w)
    (hd : w.head?.any Char.isDigit = false) (hends : Ends n.rest) (hmn : m.Over w n) :
    literal c = .done () n := by
  have hm := hmn.rest ▸ head?_any_isGap_of_isWord hw
  have hword := bareWord_eq_done_iff.mpr ⟨hw, hends, hmn⟩
  obtain ⟨d, w', rfl⟩ := List.exists_cons_of_ne_nil hw.1
  have hident := hw.2 d List.mem_cons_self
  have hstring : ∃ t, string m = .refused t := by
    refine string_refused ?_
    rw [hmn.rest]
    intro h
    cases h
    cases hident
  have hnumber : ∃ t, number m = .refused t := by
    refine number_refused hmn.rest ?_ hd
    rintro rfl
    cases hident
  obtain ⟨t, ht⟩ := hstring
  obtain ⟨t', ht'⟩ := hnumber
  rw [literal, gap_bind hg hgm hm, choice, choiceAfter_of_refused ht, choiceAfter_of_refused ht']
  exact choiceAfter_of_done (bind_eq_done.mpr ⟨_, _, hword, pure_apply () n⟩) _

/-- The parser of literals reads the token of literals, be it a string, a number or a word, if what
follows is apart from it. -/
theorem reads_literal (hf : Separates follow) :
    Reads literal [] (.token .literal) follow where
  derives {c v n} h := by
    obtain ⟨g, m, hg, hgm, hm⟩ := gap_bind_eq_done h
    refine ⟨[], rfl, ?_⟩
    obtain hs | ⟨_, -, hm⟩ := choiceAfter_cons_eq_done_iff.mp hm
    · obtain ⟨s, hover, -⟩ := string_eq_done_iff.mp hs
      exact .token (.inl (.stringLiteral hg)) (hgm.trans hover)
    obtain hnum | ⟨t, hno, hm⟩ := choiceAfter_cons_eq_done_iff.mp hm
    · obtain ⟨w, hw, hover⟩ := isNumber_of_number hnum
      exact .token (.inl (.numberLiteral hg hw)) (hgm.trans hover)
    obtain hword | ⟨_, -, hm⟩ := choiceAfter_cons_eq_done_iff.mp hm
    · obtain ⟨w, m', hw, hm'⟩ := bind_eq_done.mp hword
      cases hm'
      obtain ⟨hw, hends, hover⟩ := bareWord_eq_done_iff.mp hw
      refine .token (.inl (.wordLiteral hg hw ?_ hends)) (hgm.trans hover)
      refine Bool.eq_false_iff.mpr fun hd => ?_
      obtain ⟨d, w', rfl⟩ := List.exists_cons_of_ne_nil hw.1
      obtain ⟨k, hk⟩ := exists_number_eq_done (c := m) hover.rest hd
      exact absurd (hk.symm.trans hno) (fun h => by cases h)
    · cases hm
  done {c ys n} hd hn := by
    obtain ⟨rfl, w, hread, hover⟩ := Production.derives_token.mp hd
    refine ⟨(), ?_, rfl⟩
    cases hread.spelled nofun with
    | stringLiteral hg =>
      obtain ⟨m, hgm, hmn⟩ := hover.split
      exact literal_done_string hg hgm (string_eq_done_iff.mpr ⟨_, hmn, hf.ne_quote hn⟩)
    | numberLiteral hg hw =>
      obtain ⟨m, hgm, hmn⟩ := hover.split
      have hnumber := number_done hw hmn (hf.not_isDigit hn) (hf.ne_point hn)
      exact literal_done_number hg hgm hw hmn hnumber
    | wordLiteral hg hw hd hends =>
      obtain ⟨m, hgm, hmn⟩ := hover.split
      exact literal_done_word hg hgm hw hd hends hmn

end AlterTable.Grammar
