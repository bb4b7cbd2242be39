/-
MacroAssembler/Proofs/CursorWindow.lean

Reading never leaves its window and never splits a character.

A cursor keeps the text that is left to read.  A `Window` keeps the whole text and two byte
offsets instead, and takes a slice whenever it looks at the text; a slice may be refused
(`Text.slice?`), and then so is the step.  Between boundaries of characters no slice is
ever refused, and a window goes where a cursor goes (`Window.At.perform` for one step,
`Window.At.performAll` for any number of them).

What is read between two cursors stands between boundaries, so tokens, operations and bodies
do as well.

Main result: `Cursor.scan_sound`.
-/
import MacroAssembler.Proofs.CharBoundaries
import MacroAssembler.Proofs.LinkLayout

namespace MacroAssembler

/-- `s` is the longest run of characters that satisfy `p` at the front of `t`. -/
structure Text.LongestRun (p : Char → Bool) (t s : Text) : Prop where
  front : s <+: t
  all : ∀ ch ∈ s, p ch = true
  longest : ∀ s', s' <+: t → (∀ ch ∈ s', p ch = true) → s' <+: s

theorem Text.longestRun_takeWhile (p : Char → Bool) (t : Text) :
    LongestRun p t (t.takeWhile p) := by
  refine ⟨List.takeWhile_prefix p, List.all_eq_true.1 List.all_takeWhile, ?_⟩
  rintro s' ⟨u, rfl⟩ hall
  rw [List.takeWhile_append_of_pos hall]
  exact List.prefix_append _ _

namespace Cursor

/-! ### Steps of a cursor -/

/-- The ways to read on. -/
inductive Step
  | advance
  | eat (ch : Char)
  | eatText (s : Text)
  | eatWhile (p : Char → Bool)
  | eatIdent
  | skipBlank

/-- The text that a step reads, and where it ends; `none` if it does not apply. -/
def step? (c : Cursor) : Step → Option (Text × Cursor)
  | .advance => c.advance?.map fun r => ([r.1], r.2)
  | .eat ch => (c.eat? ch).map fun d => ([ch], d)
  | .eatText s => (c.eatText? s).map fun d => (s, d)
  | .eatWhile p => some (c.eatWhile p)
  | .eatIdent => c.eatIdent?
  | .skipBlank => some (c.upTo c.skipBlank, c.skipBlank)

/-- What is read by a step; nothing if it does not apply. -/
def consumed (c : Cursor) (s : Step) : Text := ((c.step? s).map Prod.fst).getD []

/-- The cursor behind a step; the same one if the step does not apply. -/
def after (c : Cursor) (s : Step) : Cursor := ((c.step? s).map Prod.snd).getD c

/-- The cursor behind a number of steps. -/
def scan (c : Cursor) (steps : List Step) : Cursor := steps.foldl after c

variable {c d : Cursor} {s : Step} {t : Text}

theorem reads_of_advance? {ch : Char} (h : c.advance? = some (ch, d)) : c.Reads [ch] d := by
  obtain ⟨offset, rest⟩ := c
  cases rest with
  | nil => cases h
  | cons x rest =>
    obtain ⟨rfl, rfl⟩ := Prod.mk.inj (Option.some.inj h)
    exact ⟨rfl, rfl⟩

theorem reads_of_step? (h : c.step? s = some (t, d)) : c.Reads t d := by
  cases s with
  | advance =>
    obtain ⟨⟨ch, e⟩, he, hpair⟩ := Option.map_eq_some_iff.1 h
    obtain ⟨rfl, rfl⟩ := Prod.mk.inj hpair
    exact reads_of_advance? he
  | eat ch =>
    obtain ⟨e, he, hpair⟩ := Option.map_eq_some_iff.1 h
    obtain ⟨rfl, rfl⟩ := Prod.mk.inj hpair
    exact eat?_eq_some_iff.1 he
  | eatText s =>
    obtain ⟨e, he, hpair⟩ := Option.map_eq_some_iff.1 h
    obtain ⟨rfl, rfl⟩ := Prod.mk.inj hpair
    exact eatText?_eq_some_iff.1 he
  | eatWhile p => exact (eatWhile_eq_iff.1 (Option.some.inj h)).1
  | eatIdent => exact (eatIdent?_eq_some_iff.1 h).1
  | skipBlank =>
    obtain ⟨rfl, rfl⟩ := Prod.mk.inj (Option.some.inj h)
    obtain ⟨b, hb, -⟩ := exists_reads_skipBlank c
    rwa [hb.upTo]

theorem reads_after (c : Cursor) (s : Step) : c.Reads (c.consumed s) (c.after s) := by
  rw [consumed, after]
  cases h : c.step? s with
  | none => exact .refl c
  | some r => exact reads_of_step? h

theorem reads_scan (c : Cursor) (steps : List Step) : ∃ t, c.Reads t (c.scan steps) := by
  induction steps generalizing c with
  | nil => exact ⟨[], .refl c⟩
  | cons s steps ih =>
    obtain ⟨t, ht⟩ := ih (c.after s)
    exact ⟨_, (c.reads_after s).trans ht⟩

theorem scan_append (c : Cursor) (steps steps' : List Step) :
    c.scan (steps ++ steps') = (c.scan steps).scan steps' :=
  List.foldl_append

end Cursor

/-! ### Windows -/

/-- A reading position that is kept as byte offsets into a whole text. -/
structure Window where
  source : Text
  /-- Byte offset of the next character. -/
  offset : Nat
  /-- Byte offset at which reading ends. -/
  stop : Nat
  deriving DecidableEq

namespace Window

/-- What is left to read. -/
def rest? (w : Window) : Option Text := w.source.slice? w.offset w.stop

/-- The window behind the next `n` bytes. -/
def moved (w : Window) (n : Nat) : Window := { w with offset := w.offset + n }

/-- Read the next character if there is one that satisfies `p`.  Here and below an answer
of `none` is a slice that was refused, and the text that was read is `none` if the step does
not apply. -/
def eatIf (p : Char → Bool) (w : Window) : Option (Option Text × Window) :=
  w.rest?.map fun rest =>
    match rest.first? with
    | some ch => if p ch then (some [ch], w.moved ch.utf8Size) else (none, w)
    | none => (none, w)

theorem moved_of_eatIf {p : Char → Bool} {w v : Window} {t : Text}
    (h : w.eatIf p = some (some t, v)) :
    ∃ ch : Char, v = w.moved ch.utf8Size ∧ w.offset < w.stop := by
  obtain ⟨rest, hrest, hread⟩ := Option.map_eq_some_iff.1 h
  obtain ⟨-, -, -, -, hstop⟩ := Text.slice?_eq_some_iff.1 hrest
  cases rest with
  | nil => cases hread
  | cons ch rest =>
    rw [Text.first?_eq_head?, List.head?_cons] at hread
    dsimp only at hread
    split at hread
    · obtain ⟨-, rfl⟩ := Prod.mk.inj hread
      have := ch.utf8Size_pos
      rw [Text.byteLength_cons] at hstop
      exact ⟨ch, rfl, by omega⟩
    · cases hread

/-- The window behind the next characters that satisfy `p`, one after the other. -/
def skipWhile (p : Char → Bool) (w : Window) : Option Window :=
  match _h : w.eatIf p with
  | none => none
  | some (none, v) => some v
  | some (some _, v) => skipWhile p v
termination_by w.stop - w.offset
decreasing_by
  obtain ⟨ch, rfl, hlt⟩ := moved_of_eatIf _h
  have := ch.utf8Size_pos
  simp only [moved]
  omega

/-- Read the characters up to one that does not satisfy `p`, and slice them out. -/
def eatWhile (p : Char → Bool) (w : Window) : Option (Option Text × Window) :=
  (w.skipWhile p).bind fun v => (w.source.slice? w.offset v.offset).map fun t => (some t, v)

/-- Read the text `s` if its bytes are in front. -/
def eatText (s : Text) (w : Window) : Option (Option Text × Window) :=
  w.rest?.map fun rest =>
    if s.utf8.isPrefixOf rest.utf8 then (some s, w.moved s.utf8.length) else (none, w)

/-- Read an identifier. -/
def eatIdent (w : Window) : Option (Option Text × Window) :=
  w.rest?.bind fun rest =>
    if rest.first?.any Text.isIdentChar then w.eatWhile Text.isIdentChar else some (none, w)

/-- Take a step. -/
def perform (w : Window) : Cursor.Step → Option (Option Text × Window)
  | .advance => w.eatIf fun _ => true
  | .eat ch => w.eatIf (· == ch)
  | .eatText s => w.eatText s
  | .eatWhile p => w.eatWhile p
  | .eatIdent => w.eatIdent
  | .skipBlank => w.eatWhile Text.isBlank

/-- Take a number of steps. -/
def performAll (w : Window) : List Cursor.Step → Option Window
  | [] => some w
  | s :: steps => (w.perform s).bind fun r => r.2.performAll steps

/-! ### Windows at cursors -/

/-- The window is at the cursor, and ends where what the cursor has left to read ends. -/
structure At (w : Window) (c : Cursor) : Prop where
  within : c.Within w.source
  offset : w.offset = c.offset
  ends : c.Reads c.rest ⟨w.stop, []⟩

namespace At

variable {w : Window} {c d : Cursor} {t : Text} {p : Char → Bool}

theorem ofRange {source : Text} {start stop : Nat} (hstart : source.IsBoundary start)
    (hstop : source.IsBoundary stop) (hle : start ≤ stop) :
    At ⟨source, start, stop⟩ (.ofRange source start stop) := by
  obtain ⟨hwithin, hends⟩ := Cursor.within_ofRange hstart hstop hle
  exact ⟨hwithin, rfl, hends⟩

theorem moved (h : w.At c) (hread : c.Reads t d) : (w.moved (Text.byteLength t)).At d := by
  refine ⟨hread.within h.within, ?_, hread.reads_rest h.ends⟩
  rw [hread.offset, ← h.offset]
  rfl

/-- The slice up to the end of the window is given. -/
theorem rest?_eq (h : w.At c) : w.rest? = some c.rest := by
  rw [rest?, h.offset]
  exact h.ends.slice?_eq h.within

/-- The next character is read. -/
theorem eatIf_of_cons {ch : Char} {rest : Text} (h : w.At c) (hrest : c.rest = ch :: rest)
    (hp : p ch = true) : w.eatIf p = some (some [ch], w.moved ch.utf8Size) := by
  rw [eatIf, h.rest?_eq, hrest, Option.map_some, Text.first?_eq_head?, List.head?_cons]
  exact congrArg some (if_pos hp)

/-- There is no next character, or it is left where it is. -/
theorem eatIf_of_check (h : w.At c) (hp : c.check p = false) : w.eatIf p = some (none, w) := by
  rw [Cursor.check_eq_false_iff] at hp
  rw [eatIf, h.rest?_eq, Option.map_some, Text.first?_eq_head?]
  cases hrest : c.rest with
  | nil => rfl
  | cons ch rest =>
    have hch : p ch = false := hp ch (by rw [hrest]; rfl)
    simp [hch]

/-- Characters are read one by one up to the end of the longest run. -/
theorem skipWhile_eq (h : w.At c) (hread : c.Reads t d) (hall : ∀ ch ∈ t, p ch = true)
    (hd : d.check p = false) : w.skipWhile p = some (w.moved (Text.byteLength t)) := by
  induction t generalizing w c with
  | nil =>
    obtain rfl := hread.unique (.refl c)
    rw [Window.skipWhile, h.eatIf_of_check hd]
    rfl
  | cons ch t ih =>
    rw [← List.singleton_append, Cursor.Reads.append_iff] at hread
    obtain ⟨e, hch, ht⟩ := hread
    have hnext := h.moved hch
    have hrun := ih hnext ht fun x hx => hall x (List.mem_cons_of_mem _ hx)
    have hfirst := h.eatIf_of_cons hch.rest (hall ch List.mem_cons_self)
    rw [Window.skipWhile, hfirst]
    dsimp only
    refine hrun.trans ?_
    simp only [Window.moved, Text.byteLength_cons, Text.byteLength_nil, Nat.add_zero,
      Nat.add_assoc]

theorem eatWhile_eq (h : w.At c) (p : Char → Bool) :
    w.eatWhile p =
      some (some (c.eatWhile p).1, w.moved (Text.byteLength (c.eatWhile p).1)) := by
  obtain ⟨hread, hall, hstop⟩ := Cursor.eatWhile_eq_iff.1 (rfl : c.eatWhile p = _)
  have hslice := hread.slice?_eq h.within
  rw [hread.offset, ← h.offset] at hslice
  rw [Window.eatWhile, h.skipWhile_eq hread hall hstop, Option.bind_some]
  exact congrArg (Option.map _) hslice

theorem eatText_eq (h : w.At c) (s : Text) :
    w.eatText s =
      some (if c.checkText s then (some s, w.moved (Text.byteLength s)) else (none, w)) := by
  have hfront : s.utf8.isPrefixOf c.rest.utf8 = c.checkText s := by
    rw [Bool.eq_iff_iff, Cursor.checkText, List.isPrefixOf_iff_prefix, List.isPrefixOf_iff_prefix,
      Text.utf8_prefix_iff]
  rw [Window.eatText, h.rest?_eq, Option.map_some, hfront, Text.length_utf8]

theorem eatIdent_eq (h : w.At c) :
    w.eatIdent =
      if c.check Text.isIdentChar then w.eatWhile Text.isIdentChar else some (none, w) := by
  rw [Window.eatIdent, h.rest?_eq, Option.bind_some, Text.first?_eq_head?]
  rfl

/-- A step that applies reads the same text in a window. -/
theorem perform_of_some {s : Cursor.Step} (h : w.At c) (hs : c.step? s = some (t, d)) :
    w.perform s = some (some t, w.moved (Text.byteLength t)) := by
  have hread := Cursor.reads_of_step? hs
  cases s with
  | advance =>
    obtain ⟨⟨ch, e⟩, -, hpair⟩ := Option.map_eq_some_iff.1 hs
    obtain ⟨rfl, rfl⟩ := Prod.mk.inj hpair
    exact h.eatIf_of_cons hread.rest rfl
  | eat ch =>
    obtain ⟨e, -, hpair⟩ := Option.map_eq_some_iff.1 hs
    obtain ⟨rfl, rfl⟩ := Prod.mk.inj hpair
    exact h.eatIf_of_cons hread.rest (beq_self_eq_true ch)
  | eatText s =>
    obtain ⟨e, -, hpair⟩ := Option.map_eq_some_iff.1 hs
    obtain ⟨rfl, rfl⟩ := Prod.mk.inj hpair
    have hfront : c.checkText s = true := List.isPrefixOf_iff_prefix.2 ⟨e.rest, hread.rest.symm⟩
    rw [Window.perform, h.eatText_eq, if_pos hfront]
  | eatWhile p =>
    rw [Window.perform, h.eatWhile_eq, Option.some.inj hs]
  | eatIdent =>
    rw [Cursor.step?, Cursor.eatIdent?] at hs
    split at hs
    · rename_i hcheck
      rw [Window.perform, h.eatIdent_eq, if_pos hcheck, h.eatWhile_eq, Option.some.inj hs]
    · cases hs
  | skipBlank =>
    obtain ⟨rfl, -⟩ := Prod.mk.inj (Option.some.inj hs)
    have hblank : c.upTo c.skipBlank = (c.eatWhile Text.isBlank).1 :=
      (Cursor.reads_eatWhile Text.isBlank c).upTo
    rw [Window.perform, h.eatWhile_eq, hblank]

/-- A step that does not apply leaves the window where it is. -/
theorem perform_of_none {s : Cursor.Step} (h : w.At c) (hs : c.step? s = none) :
    w.perform s = some (none, w) := by
  cases s with
  | advance =>
    refine h.eatIf_of_check ?_
    rw [Cursor.step?, Option.map_eq_none_iff, Cursor.advance?] at hs
    cases hrest : c.rest with
    | nil =>
      rw [Cursor.check, Cursor.peek?, hrest]
      rfl
    | cons ch rest => simp [hrest] at hs
  | eat ch =>
    refine h.eatIf_of_check (Cursor.check_eq_false_iff.2 fun x hx => beq_false_of_ne ?_)
    rintro rfl
    obtain ⟨rest, hrest⟩ := List.head?_eq_some_iff.1 hx
    rw [Cursor.step?, Option.map_eq_none_iff, Cursor.eat?, hrest] at hs
    simp at hs
  | eatText s =>
    rw [Cursor.step?, Option.map_eq_none_iff, Cursor.eatText?] at hs
    have hfront : ¬ c.checkText s = true := by
      intro hfront
      rw [if_pos hfront] at hs
      cases hs
    rw [Window.perform, h.eatText_eq, if_neg hfront]
  | eatWhile p => cases hs
  | eatIdent =>
    rw [Cursor.step?, Cursor.eatIdent?] at hs
    split at hs
    · cases hs
    · rename_i hcheck
      rw [Window.perform, h.eatIdent_eq, if_neg hcheck]
  | skipBlank => cases hs

/-- **A step of a window is the step of its cursor.** -/
theorem perform (h : w.At c) (s : Cursor.Step) :
    w.perform s =
      some ((c.step? s).map Prod.fst, w.moved (Text.byteLength (c.consumed s))) := by
  rw [Cursor.consumed]
  cases hs : c.step? s with
  | none => exact h.perform_of_none hs
  | some r => exact h.perform_of_some hs

/-- **No step is refused**, however many there are. -/
theorem performAll (h : w.At c) (steps : List Cursor.Step) :
    w.performAll steps = some ⟨w.source, (c.scan steps).offset, w.stop⟩ := by
  induction steps generalizing w c with
  | nil =>
    rw [Window.performAll, Cursor.scan, List.foldl_nil, ← h.offset]
  | cons s steps ih =>
    rw [Window.performAll, h.perform s, Option.bind_some]
    exact ih (h.moved (c.reads_after s))

end At

end Window

/-! ### Boundaries of what is read -/

/-- Two byte offsets of a text, in order and at boundaries of characters. -/
structure Text.Span (source : Text) (start stop : Nat) : Prop where
  left : source.IsBoundary start
  right : source.IsBoundary stop
  le : start ≤ stop

theorem Cursor.Reads.span {source t : Text} {c d : Cursor} (h : c.Reads t d)
    (hc : c.Within source) : source.Span c.offset d.offset :=
  ⟨hc.isBoundary, (h.within hc).isBoundary, h.offset_le⟩

/-- What is read between two cursors, as a window. -/
theorem Cursor.Reads.window_eq {source t : Text} {c d : Cursor} (h : c.Reads t d)
    (hc : c.Within source) : (⟨c.offset, t⟩ : Cursor) = .ofRange source c.offset d.offset := by
  rw [ofRange, h.slice_eq hc]

theorem Token.span_of_mem_lex {source : Text} {c : Cursor} {t : Token} (hc : c.Within source)
    (ht : t ∈ (lex c).1) : source.Span t.start t.stop := by
  obtain ⟨s, e, d, hread, -, htoken⟩ := exists_token?_of_mem_lex ht
  obtain ⟨hlexeme, hstart, -⟩ := readAt_of_token? htoken
  rw [Token.stop, hstart, ← hlexeme.offset]
  exact hlexeme.span (hread.within hc)

theorem Body.isBoundary_of_parse {source : Text} {r : Registry} {window : Cursor}
    {ops : List Operation} (hwindow : window.Within source) (h : parse r window = .ok ops)
    {op : Operation} (hop : op ∈ ops) : source.IsBoundary op.source := by
  obtain ⟨-, -, s, e, -, hread, -, hsource, -⟩ := exists_token_of_parse h hop
  rw [← hsource]
  exact (hread.within hwindow).isBoundary

/-- A macro and its body stand in the text. -/
theorem Macro.BodyAt.within {source : Text} {m : Macro} {start : Nat} (h : m.BodyAt source start) :
    source.IsBoundary m.source ∧ (⟨start, m.body⟩ : Cursor).Within source := by
  obtain ⟨before, head, after, hsource, -, -, -, hm, hstart⟩ := h
  refine ⟨⟨before, _, hsource, hm.symm⟩, before ++ head ++ ['{'], '}' :: after, ?_, ?_⟩
  · rw [hsource]
    simp only [List.append_assoc, List.cons_append, List.nil_append]
  · rw [Text.byteLength_append, Text.byteLength_append, ← hm]
    exact hstart

namespace Declaration

/-- The body that a header leaves to be read is a window between boundaries. -/
theorem span_of_header {source : Text} {c d : Cursor} {start : Nat} {hd : Header}
    (hc : c.Within source) (h : header start c = .ok (hd, d)) :
    ∃ stop, source.Span hd.body.offset stop ∧
      hd.body = .ofRange source hd.body.offset stop := by
  obtain ⟨s, e, f, hhead, -, hbody, -, hwindow⟩ := (headerRead_of_header h).window
  have he := hhead.within hc
  have hoffset : hd.body.offset = e.offset := by rw [hwindow]
  refine ⟨f.offset, ?_, ?_⟩
  · rw [hoffset]
    exact hbody.span he
  · rw [hoffset, ← hbody.window_eq he]
    exact hwindow

/-- Whatever is read from a text, as a token, as an operation or as a body, is read between
boundaries of its characters. -/
structure OnBoundaries (source : Text) : Prop where
  tokens : ∀ start stop, source.Span start stop →
    ∀ t ∈ (Token.lex (.ofRange source start stop)).1, source.Span t.start t.stop
  operations : ∀ start stop, source.Span start stop →
    ∀ r ops, Body.parse r (.ofRange source start stop) = .ok ops →
      ∀ op ∈ ops, source.IsBoundary op.source
  /-- This is about every header, of a text with faults as well. -/
  headers : ∀ c, c.Within source → ∀ start hd d, header start c = .ok (hd, d) →
    ∃ stop, source.Span hd.body.offset stop ∧ hd.body = .ofRange source hd.body.offset stop
  macros : ∀ r, parse source = .ok r → ∀ m ∈ r.macros, source.IsBoundary m.source ∧
    ∃ start stop r', source.Span start stop ∧ source.slice? start stop = some m.body ∧
      Body.parse r' (.ofRange source start stop) = .ok m.ops ∧
      ∀ op ∈ m.ops, source.IsBoundary op.source

theorem onBoundaries (source : Text) : OnBoundaries source := by
  have within : ∀ {start stop}, source.Span start stop →
      (Cursor.ofRange source start stop).Within source :=
    fun h => (Cursor.within_ofRange h.left h.right h.le).1
  refine ⟨fun _ _ h _ ht => Token.span_of_mem_lex (within h) ht,
    fun _ _ h _ _ hops _ hop => Body.isBoundary_of_parse (within h) hops hop,
    fun _ hc _ _ _ h => span_of_header hc h, ?_⟩
  intro r hparse m hm
  obtain ⟨start, r', hbody, hops, -⟩ := Registry.bodiesRead_of_parse hparse m hm
  obtain ⟨hsource, hwithin⟩ := hbody.within
  -- the body as what is read from its start on
  have hread : (⟨start, m.body⟩ : Cursor).Reads m.body ⟨start + Text.byteLength m.body, []⟩ :=
    ⟨(List.append_nil _).symm, rfl⟩
  refine ⟨hsource, start, start + Text.byteLength m.body, r',
    hread.span hwithin, hread.slice?_eq hwithin, ?_,
    fun op hop => Body.isBoundary_of_parse hwithin hops hop⟩
  rwa [← hread.window_eq hwithin]

end Declaration

/-! ### Scanning a window -/

namespace Cursor

/-- The cursor `c` behind some steps through the window of a text between two offsets. -/
structure Scanned (source : Text) (start stop : Nat) (steps : List Step) (c : Cursor) : Prop where
  /-- No slice is refused on the way. -/
  given : (⟨source, start, stop⟩ : Window).performAll steps = some ⟨source, c.offset, stop⟩
  inside : start ≤ c.offset ∧ c.offset ≤ stop
  boundary : source.IsBoundary c.offset
  rest : source.slice? c.offset stop = some c.rest
  /-- The offset was nowhere greater, and the text since then can be sliced out. -/
  earlier : ∀ steps₁ steps₂, steps = steps₁ ++ steps₂ →
    ((ofRange source start stop).scan steps₁).offset ≤ c.offset ∧
      source.slice? ((ofRange source start stop).scan steps₁).offset c.offset =
        some (c.sliceFrom source ((ofRange source start stop).scan steps₁).offset)
  /-- One more step is not refused, and does not lead back. -/
  next : ∀ s, c.offset ≤ (c.after s).offset ∧
    (⟨source, c.offset, stop⟩ : Window).perform s =
      some ((c.step? s).map Prod.fst, ⟨source, (c.after s).offset, stop⟩)
  /-- A step that does not apply leaves the window where it is. -/
  failed : ∀ s w, (⟨source, c.offset, stop⟩ : Window).perform s = some (none, w) →
    w = ⟨source, c.offset, stop⟩ ∧ c.after s = c
  run : ∀ p, Text.LongestRun p c.rest (c.eatWhile p).1 ∧
    source.slice? c.offset (c.eatWhile p).2.offset = some (c.eatWhile p).1

theorem scanned_scan {source : Text} {start stop : Nat} (h : source.Span start stop)
    (steps : List Step) :
    Scanned source start stop steps ((ofRange source start stop).scan steps) := by
  have hat := Window.At.ofRange h.left h.right h.le
  obtain ⟨t, ht⟩ := reads_scan (ofRange source start stop) steps
  -- the window is at the cursor again
  have hnow : Window.At ⟨source, ((ofRange source start stop).scan steps).offset, stop⟩
      ((ofRange source start stop).scan steps) :=
    ⟨ht.within hat.within, rfl, ht.reads_rest hat.ends⟩
  generalize hc : (ofRange source start stop).scan steps = c at ht hnow
  refine ⟨?_, ⟨ht.offset_le, hnow.ends.offset_le⟩, hnow.within.isBoundary, hnow.rest?_eq,
    ?_, ?_, ?_, ?_⟩
  · rw [← hc]
    exact hat.performAll steps
  · rintro steps₁ steps₂ rfl
    obtain ⟨t₁, ht₁⟩ := reads_scan (ofRange source start stop) steps₁
    obtain ⟨t₂, ht₂⟩ := reads_scan ((ofRange source start stop).scan steps₁) steps₂
    rw [← scan_append, hc] at ht₂
    have hspan := ht₂.span (ht₁.within hat.within)
    exact ⟨hspan.le, Text.slice?_of_isBoundary hspan.left hspan.right hspan.le⟩
  · intro s
    have hread := c.reads_after s
    refine ⟨hread.offset_le, ?_⟩
    rw [hnow.perform s, hread.offset]
    rfl
  · intro s w hw
    rw [hnow.perform s] at hw
    obtain ⟨hnone, rfl⟩ := Prod.mk.inj (Option.some.inj hw)
    rw [Option.map_eq_none_iff] at hnone
    rw [consumed, after, hnone]
    exact ⟨rfl, rfl⟩
  · intro p
    exact ⟨Text.longestRun_takeWhile p c.rest, (reads_eatWhile p c).slice?_eq hnow.within⟩

/-- **Reading never leaves its window and never splits a character.**  Any number of steps
through a window between two boundaries leads from boundary to boundary inside of it, without
a slice that is refused; so tokens, operations and bodies stand between boundaries. -/
theorem scan_sound {source : Text} {start stop : Nat} (h : source.Span start stop)
    (steps : List Step) :
    Scanned source start stop steps ((ofRange source start stop).scan steps) ∧
      Declaration.OnBoundaries source :=
  ⟨scanned_scan h steps, Declaration.onBoundaries source⟩

/-- A macro with blanks of three bytes in front of it and in its body. -/
def wide : Text :=
  "\u3000#define macro M = takes(0) returns(0) \x7b\u3000stop\u3000\x7d".toList

/-- Steps through the body of `wide`, three of which do not apply. -/
def wideSteps : List Step :=
  [.eat 's', .skipBlank, .eatText "sto".toList, .advance, .eatIdent, .eatWhile (· != 'x'), .advance]

theorem scan_sound_wide :
    wide.Span 42 52 ∧ Scanned wide 42 52 wideSteps ⟨52, []⟩ ∧
      (Declaration.parse wide).toOption.map
        (fun r => r.macros.map fun m => m.ops.map Operation.source) = some [[45]] ∧
      Declaration.OnBoundaries wide := by
  have hspan : wide.Span 42 52 := ⟨by decide +kernel, by decide +kernel, by decide⟩
  have hscan : (ofRange wide 42 52).scan wideSteps = ⟨52, []⟩ := by decide +kernel
  obtain ⟨hscanned, hboundaries⟩ := scan_sound hspan wideSteps
  rw [hscan] at hscanned
  exact ⟨hspan, hscanned, by decide +kernel, hboundaries⟩

end Cursor

end MacroAssembler
