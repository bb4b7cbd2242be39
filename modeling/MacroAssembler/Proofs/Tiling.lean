/-
MacroAssembler/Proofs/Tiling.lean

Tokens tile the window that they are read from.

A window is cut into tokens and blanks: nothing is lost between two tokens, and nothing is
read twice.  `Token.Chain` says this of cursors, one token at a time, and every reading of
a window is such a chain (`Token.exists_chain_lex`).  `Token.Tiling` says it of the source
text and byte offsets alone, and follows from a chain by taking slices of the text.

Tokens can be asked for one by one (`Token.Stream`).  That ends, and hands out what
`Token.lex` lists, with unrecognized input as the last item (`Token.delivers_lex`).

Main result: `Token.tiling_lex`.
-/
import MacroAssembler.Proofs.Moving

namespace MacroAssembler

/-! ### Boundaries of characters -/

namespace Text

/-- A byte offset between two characters of a text, or at one of its ends. -/
def IsBoundary (t : Text) (n : Nat) : Prop := ∃ s u, t = s ++ u ∧ byteLength s = n

theorem slice_append (a s b : Text) :
    slice (a ++ s ++ b) (byteLength a) (byteLength a + byteLength s) = s := by
  rw [slice, Nat.add_sub_cancel_left, List.append_assoc, dropBytes_append, takeBytes_append]

/-- A slice between two boundaries is what stands there. -/
theorem exists_eq_append_slice {t : Text} {start stop : Nat} (hstart : t.IsBoundary start)
    (hstop : t.IsBoundary stop) (hle : start ≤ stop) :
    ∃ before after, t = before ++ slice t start stop ++ after ∧ byteLength before = start ∧
      start + byteLength (slice t start stop) = stop := by
  obtain ⟨s, u, ht, rfl⟩ := hstart
  obtain ⟨s', u', ht', rfl⟩ := hstop
  -- the text up to the earlier boundary begins the text up to the later one
  obtain ⟨m, rfl⟩ : ∃ m, s' = s ++ m := by
    obtain ⟨m, hm, -⟩ | ⟨m, hm, -⟩ := List.append_eq_append_iff.1 (ht.symm.trans ht')
    · exact ⟨m, hm⟩
    · rw [hm, byteLength_append] at hle
      have hnil : m = [] := by
        by_contra hm
        have := byteLength_pos hm
        omega
      exact ⟨[], by simp [hm, hnil]⟩
  have hslice : slice t (byteLength s) (byteLength (s ++ m)) = m := by
    rw [ht', byteLength_append, slice_append]
  rw [hslice]
  exact ⟨s, u', ht', rfl, by rw [byteLength_append]⟩

end Text

namespace Cursor

variable {source s : Text} {c d : Cursor}

theorem Within.isBoundary (h : c.Within source) : source.IsBoundary c.offset := by
  obtain ⟨before, after, hsource, hoffset⟩ := h
  exact ⟨before, c.rest ++ after, by rw [hsource, List.append_assoc], hoffset.symm⟩

/-- What is read between two cursors is the slice between their offsets. -/
theorem Reads.slice_eq (h : c.Reads s d) (hc : c.Within source) :
    Text.slice source c.offset d.offset = s := by
  obtain ⟨before, after, hsource, hoffset⟩ := hc
  have hcut : source = before ++ s ++ (d.rest ++ after) := by
    rw [hsource, h.rest]
    simp only [List.append_assoc]
  rw [hcut, h.offset, hoffset, Text.slice_append]

/-- The window ends where it did, behind whatever has been read of it. -/
theorem Reads.reads_rest {stop : Nat} (h : c.Reads s d) (hwindow : c.Reads c.rest ⟨stop, []⟩) :
    d.Reads d.rest ⟨stop, []⟩ := by
  refine ⟨(List.append_nil _).symm, ?_⟩
  rw [h.offset_add_byteLength]
  exact hwindow.offset

/-- A window between two boundaries stands in the text, up to the later one. -/
theorem within_ofRange {start stop : Nat} (hstart : source.IsBoundary start)
    (hstop : source.IsBoundary stop) (hle : start ≤ stop) :
    (ofRange source start stop).Within source ∧
      (ofRange source start stop).Reads (ofRange source start stop).rest ⟨stop, []⟩ := by
  obtain ⟨before, after, hsource, hbefore, hlength⟩ :=
    Text.exists_eq_append_slice hstart hstop hle
  exact ⟨⟨before, after, hsource, hbefore.symm⟩, (List.append_nil _).symm, hlength.symm⟩

end Cursor

namespace Token

/-! ### Chains of tokens -/

/-- Tokens are read one after the other between two cursors, each behind blanks. -/
inductive Chain : Cursor → List Token → Cursor → Prop
  | nil (c : Cursor) : Chain c [] c
  | cons {c e d f : Cursor} {b : Text} {t : Token} {ts : List Token} :
      c.Reads b e → (∀ ch ∈ b, Text.isBlank ch = true) → e.Reads t.lexeme d → t.lexeme ≠ [] →
        t.start = e.offset → Chain d ts f → Chain c (t :: ts) f

/-- Where the last token ends; without tokens, where they were to begin. -/
def reach (start : Nat) (ts : List Token) : Nat := (ts.getLast?.map stop).getD start

theorem reach_cons (start : Nat) (t : Token) (ts : List Token) :
    reach start (t :: ts) = reach t.stop ts := by
  rw [reach, reach, List.getLast?_cons]
  cases ts.getLast? <;> rfl

namespace Chain

variable {c f : Cursor} {ts : List Token}

theorem reads (h : Chain c ts f) : ∃ s, c.Reads s f := by
  induction h with
  | nil c => exact ⟨[], .refl c⟩
  | cons hblank _ hlexeme _ _ _ ih =>
    obtain ⟨s, hs⟩ := ih
    exact ⟨_, (hblank.trans hlexeme).trans hs⟩

theorem offset_eq (h : Chain c ts f) : f.offset = reach c.offset ts := by
  induction h with
  | nil c => rfl
  | cons _ _ hlexeme _ hstart _ ih => rw [ih, reach_cons, hlexeme.offset, stop, hstart]

/-- A chain is cut between two of its tokens. -/
theorem of_append {ts₁ ts₂ : List Token} (h : Chain c (ts₁ ++ ts₂) f) :
    ∃ d, Chain c ts₁ d ∧ Chain d ts₂ f := by
  induction ts₁ generalizing c with
  | nil => exact ⟨c, .nil c, h⟩
  | cons t ts₁ ih =>
    cases h with
    | cons hblank hb hlexeme hne hstart hrest =>
      obtain ⟨d, hfirst, hsecond⟩ := ih hrest
      exact ⟨d, .cons hblank hb hlexeme hne hstart hfirst, hsecond⟩

/-- Where a token of a chain is read, behind those in front of it. -/
theorem at_token {ts₁ ts₂ : List Token} {t : Token} (h : Chain c (ts₁ ++ t :: ts₂) f) :
    ∃ d e g b, Chain c ts₁ d ∧ d.Reads b e ∧ (∀ ch ∈ b, Text.isBlank ch = true) ∧
      e.Reads t.lexeme g ∧ t.lexeme ≠ [] ∧ t.start = e.offset ∧ Chain g ts₂ f := by
  obtain ⟨d, hfirst, hsecond⟩ := h.of_append
  cases hsecond with
  | cons hblank hb hlexeme hne hstart hrest =>
    exact ⟨d, _, _, _, hfirst, hblank, hb, hlexeme, hne, hstart, hrest⟩

theorem start_le {t : Token} (h : Chain c ts f) (ht : t ∈ ts) : c.offset ≤ t.start := by
  obtain ⟨ts₁, ts₂, rfl⟩ := List.append_of_mem ht
  obtain ⟨d, e, g, b, hfirst, hblank, -, -, -, hstart, -⟩ := h.at_token
  obtain ⟨s, hs⟩ := hfirst.reads
  rw [hstart]
  exact Nat.le_trans hs.offset_le hblank.offset_le

theorem stop_le {t : Token} (h : Chain c ts f) (ht : t ∈ ts) : t.stop ≤ f.offset := by
  obtain ⟨ts₁, ts₂, rfl⟩ := List.append_of_mem ht
  obtain ⟨d, e, g, b, -, -, -, hlexeme, -, hstart, hrest⟩ := h.at_token
  obtain ⟨s, hs⟩ := hrest.reads
  rw [stop, hstart, ← hlexeme.offset]
  exact hs.offset_le

theorem pairwise (h : Chain c ts f) : ts.Pairwise fun t t' => t.stop ≤ t'.start := by
  induction h with
  | nil => exact .nil
  | cons _ _ hlexeme _ hstart hrest ih =>
    refine .cons (fun t' ht' => ?_) ih
    rw [stop, hstart, ← hlexeme.offset]
    exact hrest.start_le ht'

end Chain

/-- What a reader finds behind its last token: blanks, or input that is no token. -/
def Ends (f : Cursor) : Option Unrecognized → Prop
  | none => ∀ ch ∈ f.rest, Text.isBlank ch = true
  | some u => f.skipBlank.isEof = false ∧ u = unrecognized f.skipBlank

/-- **Every reading is a chain** up to a place where it must end. -/
theorem exists_chain_lex (c : Cursor) : ∃ f, Chain c (lex c).1 f ∧ Ends f (lex c).2 := by
  fun_induction lex c with
  | case1 c e heof =>
    obtain ⟨b, hb, hblank, -⟩ := Cursor.skipBlank_eq_iff.1 (rfl : c.skipBlank = e)
    refine ⟨c, .nil c, ?_⟩
    have hrest : c.rest = b := by rw [hb.rest, List.isEmpty_iff.1 heof, List.append_nil]
    show ∀ ch ∈ c.rest, Text.isBlank ch = true
    rwa [hrest]
  | case2 c e hne _ => exact ⟨c, .nil c, by simpa using hne, rfl⟩
  | case3 c e hne t d ht hlt ts u hlex ih =>
    obtain ⟨f, hchain, hends⟩ := ih
    obtain ⟨b, hb, hblank, -⟩ := Cursor.skipBlank_eq_iff.1 (rfl : c.skipBlank = e)
    obtain ⟨hread, hstart, -⟩ := readAt_of_token? ht
    have hnonempty : t.lexeme ≠ [] := by
      intro hnil
      rw [hread.rest, hnil] at hlt
      exact Nat.lt_irrefl _ hlt
    rw [hlex] at hchain hends
    exact ⟨f, .cons hb hblank hread hnonempty hstart hchain, hends⟩

/-! ### Tokens on request -/

/-- A reader that is asked for one token after the other. -/
structure Stream where
  cursor : Cursor
  /-- Whether unrecognized input was met. -/
  failed : Bool

namespace Stream

/-- The next token, or the input that is none.  Nothing comes behind such input. -/
def next? (s : Stream) : Option (Except Unrecognized Token × Stream) :=
  let c := s.cursor.skipBlank
  if s.failed || c.isEof then none
  else
    match token? c with
    | none => some (.error (unrecognized c), ⟨c, true⟩)
    | some (t, d) => some (.ok t, ⟨d, false⟩)

/-- Asked again and again, the reader hands out these items, and then no more. -/
inductive Delivers : Stream → List (Except Unrecognized Token) → Prop
  | done {s : Stream} : s.next? = none → Delivers s []
  | item {s s' : Stream} {i : Except Unrecognized Token} {is : List (Except Unrecognized Token)} :
      s.next? = some (i, s') → Delivers s' is → Delivers s (i :: is)

end Stream

/-- Tokens, and behind them the input that is none. -/
def items (read : List Token × Option Unrecognized) : List (Except Unrecognized Token) :=
  read.1.map .ok ++ read.2.toList.map .error

/-- Asking for tokens one by one ends, with the tokens that are listed. -/
theorem delivers_lex (c : Cursor) : Stream.Delivers ⟨c, false⟩ (items (lex c)) := by
  fun_induction lex c with
  | case1 c e heof =>
    refine .done ?_
    simp only [Stream.next?]
    rw [if_pos]
    simpa using heof
  | case2 c e hne hnone =>
    have hnext : Stream.next? ⟨c, false⟩ = some (.error (unrecognized e), ⟨e, true⟩) := by
      simp only [Stream.next?]
      rw [if_neg (by simpa using hne), hnone]
    exact .item hnext (.done rfl)
  | case3 c e hne t d ht hlt ts u hlex ih =>
    rw [hlex] at ih
    have hnext : Stream.next? ⟨c, false⟩ = some (.ok t, ⟨d, false⟩) := by
      simp only [Stream.next?]
      rw [if_neg (by simpa using hne), ht]
    exact .item hnext ih

/-! ### Tilings -/

/-- Tokens, and the input behind them that is none, fill the window between two offsets of
a text up to blanks. -/
structure Tiling (source : Text) (start stop : Nat) (ts : List Token) (u? : Option Unrecognized) :
    Prop where
  /-- A token is what the text has at its place, and is not empty. -/
  lexeme : ∀ t ∈ ts, t.lexeme ≠ [] ∧ source.IsBoundary t.start ∧ source.IsBoundary t.stop ∧
    t.lexeme = Text.slice source t.start t.stop
  inside : ∀ t ∈ ts, start ≤ t.start ∧ t.stop ≤ stop
  ordered : ts.Pairwise fun t t' => t.stop ≤ t'.start
  /-- In front of each token, up to the one before it, there are only blanks. -/
  gaps : ∀ ts₁ t ts₂, ts = ts₁ ++ t :: ts₂ →
    ∀ ch ∈ Text.slice source (reach start ts₁) t.start, Text.isBlank ch = true
  ended : u? = none → ∀ ch ∈ Text.slice source (reach start ts) stop, Text.isBlank ch = true
  /-- Unrecognized input starts at the first character behind the tokens that is not blank. -/
  stopped : ∀ u ∈ u?, source.IsBoundary u.offset ∧ reach start ts ≤ u.offset ∧
    (∀ ch ∈ Text.slice source (reach start ts) u.offset, Text.isBlank ch = true) ∧
    (∃ ch rest, Text.slice source u.offset stop = ch :: rest ∧ Text.isBlank ch = false) ∧
    u.snippet ≠ [] ∧ u.snippet <+: Text.slice source u.offset stop

/-- Unrecognized input behind blanks, as slices of the text. -/
theorem stopped_of_skipBlank {source : Text} {f : Cursor} (hf : f.Within source) {stop : Nat}
    (hwindow : f.Reads f.rest ⟨stop, []⟩) (hne : f.skipBlank.isEof = false) :
    source.IsBoundary f.skipBlank.offset ∧ f.offset ≤ f.skipBlank.offset ∧
      (∀ ch ∈ Text.slice source f.offset f.skipBlank.offset, Text.isBlank ch = true) ∧
      (∃ ch rest, Text.slice source f.skipBlank.offset stop = ch :: rest ∧
        Text.isBlank ch = false) ∧
      (unrecognized f.skipBlank).snippet ≠ [] ∧
      (unrecognized f.skipBlank).snippet <+: Text.slice source f.skipBlank.offset stop := by
  obtain ⟨b, hb, hblank, hstop⟩ := Cursor.skipBlank_eq_iff.1 (rfl : f.skipBlank = _)
  have hwithin : f.skipBlank.Within source := hb.within hf
  obtain ⟨ch, rest, hrest⟩ : ∃ ch rest, f.skipBlank.rest = ch :: rest :=
    List.exists_cons_of_ne_nil (by simpa [Cursor.isEof] using hne)
  have hch : Text.isBlank ch = false := by
    rw [Cursor.check_eq_false_iff] at hstop
    exact hstop ch (by rw [hrest]; rfl)
  rw [hb.slice_eq hf, (hb.reads_rest hwindow).slice_eq hwithin]
  refine ⟨hwithin.isBoundary, hb.offset_le, hblank, ⟨ch, rest, hrest, hch⟩, ?_, ?_⟩
  · simp [unrecognized, hrest, hch, maxSnippet]
  · -- the snippet is the front of the longest run without a blank
    apply List.IsPrefix.trans
    · exact List.take_prefix _ _
    · exact List.takeWhile_prefix _

/-- A chain through a window, as slices of the text. -/
theorem tiling_of_chain {source : Text} {c f : Cursor} {ts : List Token}
    {u? : Option Unrecognized} (hc : c.Within source) {stop : Nat}
    (hwindow : c.Reads c.rest ⟨stop, []⟩) (h : Chain c ts f) (hends : Ends f u?) :
    Tiling source c.offset stop ts u? := by
  obtain ⟨s, hs⟩ := h.reads
  have hf : f.Within source := hs.within hc
  have htail : f.Reads f.rest ⟨stop, []⟩ := hs.reads_rest hwindow
  have hreach : reach c.offset ts = f.offset := h.offset_eq.symm
  refine ⟨?_, ?_, h.pairwise, ?_, ?_, ?_⟩
  · intro t ht
    obtain ⟨ts₁, ts₂, rfl⟩ := List.append_of_mem ht
    obtain ⟨d, e, g, b, hfirst, hblank, -, hlexeme, hne, hstart, -⟩ := h.at_token
    obtain ⟨s', hs'⟩ := hfirst.reads
    have he : e.Within source := hblank.within (hs'.within hc)
    have hstop : t.stop = g.offset := by rw [Token.stop, hstart, hlexeme.offset]
    rw [hstart, hstop]
    exact ⟨hne, he.isBoundary, (hlexeme.within he).isBoundary, (hlexeme.slice_eq he).symm⟩
  · intro t ht
    exact ⟨h.start_le ht, Nat.le_trans (h.stop_le ht) htail.offset_le⟩
  · rintro ts₁ t ts₂ rfl
    obtain ⟨d, e, g, b, hfirst, hblank, hb, -, -, hstart, -⟩ := h.at_token
    obtain ⟨s', hs'⟩ := hfirst.reads
    rw [← hfirst.offset_eq, hstart, hblank.slice_eq (hs'.within hc)]
    exact hb
  · rintro rfl
    rw [hreach, htail.slice_eq hf]
    exact hends
  · rintro u ⟨⟩
    obtain ⟨hne, rfl⟩ := hends
    rw [hreach]
    exact stopped_of_skipBlank hf htail hne

/-- **Tokens tile their window.**  Asking for tokens ends; the tokens are parts of the
text in their order, with nothing but blanks around them, up to the end or to the first input
that is no token; and they are those of the window on its own, further on by its start. -/
theorem tiling_lex {source : Text} {start stop : Nat} (hstart : source.IsBoundary start)
    (hstop : source.IsBoundary stop) (hle : start ≤ stop) :
    Stream.Delivers ⟨.ofRange source start stop, false⟩ (items (lex (.ofRange source start stop))) ∧
      Tiling source start stop (lex (.ofRange source start stop)).1
        (lex (.ofRange source start stop)).2 ∧
      lex (.ofRange source start stop) =
        ((lex (.ofText (Text.slice source start stop))).1.map (move start),
          (lex (.ofText (Text.slice source start stop))).2.map (Unrecognized.move start)) := by
  obtain ⟨hwithin, hwindow⟩ := Cursor.within_ofRange hstart hstop hle
  obtain ⟨f, hchain, hends⟩ := exists_chain_lex (.ofRange source start stop)
  refine ⟨delivers_lex _, tiling_of_chain hwithin hwindow hchain hends, ?_⟩
  have hmove : Cursor.ofRange source start stop =
      (Cursor.ofText (Text.slice source start stop)).move start := by
    simp [Cursor.ofRange, Cursor.ofText, Cursor.move]
  rw [hmove, lex_move]

/-- Characters of two bytes in front of a window and at its end. -/
def marked : Text := "é a $é x".toList

/-- The window ` a $é`: reading stops short behind its first token. -/
theorem tiling_lex_marked :
    marked.IsBoundary 2 ∧ marked.IsBoundary 8 ∧ 2 ≤ 8 ∧
      Stream.Delivers ⟨.ofRange marked 2 8, false⟩
        [.ok ⟨.word "a", ['a'], 3⟩, .error ⟨5, ['$', 'é']⟩] ∧
      Tiling marked 2 8 [⟨.word "a", ['a'], 3⟩] (some ⟨5, ['$', 'é']⟩) := by
  have hstart : marked.IsBoundary 2 :=
    ⟨['é'], " a $é x".toList, by decide +kernel, by decide +kernel⟩
  have hstop : marked.IsBoundary 8 :=
    ⟨"é a $é".toList, " x".toList, by decide +kernel, by decide +kernel⟩
  have hle : 2 ≤ 8 := by decide
  have hlex : lex (.ofRange marked 2 8) = ([⟨.word "a", ['a'], 3⟩], some ⟨5, ['$', 'é']⟩) := by
    decide +kernel
  obtain ⟨hdelivers, htiling, -⟩ := tiling_lex hstart hstop hle
  rw [hlex] at hdelivers htiling
  exact ⟨hstart, hstop, hle, hdelivers, htiling⟩

end Token

end MacroAssembler
