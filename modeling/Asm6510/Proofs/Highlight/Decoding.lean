import Asm6510.Highlight
import Asm6510.Proofs.Grammar.Stream
import Asm6510.Proofs.Usage.Comments
import Mathlib

/-!
# What an editor reads from the numbers of the highlighting

An editor takes the numbers five by five and adds up lines, and starts within a line.

* `Entry`: five numbers; `groups?` finds them, `absolute` adds them up.
* `shown?`: what is to be read for a token.
* `Token.StandsIn`: a token at its place in a text.

Main statement: `encode_decodes`, the tokens of a text that have a class are read from its numbers
in order, each in its place within its line.
-/

namespace Asm6510

namespace Text

/-! ## Units -/

@[simp] theorem units_nil : units [] = 0 := rfl

@[simp] theorem units_cons (c : Char) (cs : List Char) : units (c :: cs) = charUnits c + units cs :=
  rfl

@[simp] theorem units_append (xs ys : List Char) : units (xs ++ ys) = units xs + units ys := by
  induction xs with
  | nil => simp
  | cons c xs ih =>
    simp only [List.cons_append, units_cons, ih]
    omega

theorem charUnits_pos (c : Char) : 0 < charUnits c := by
  unfold charUnits
  split <;> omega

end Text

/-! ## Tokens in their lines -/

/-- A token with characters stands in a text behind the characters `read`. -/
structure Token.StandsIn (text : List Char) (t : Token) (read : List Char) : Prop where
  text_eq : ∃ behind, text = read ++ (t.spelling.toList ++ behind)
  place_eq : t.place = Place.behind read
  head_ne : ∃ c w, t.spelling.toList = c :: w ∧ c ≠ '\n'

/-- The tokens of a text, the end apart, stand in it one behind the other. -/
theorem Spelled.standsIn {before ahead : List Char} {ts : List Token}
    (h : Spelled before ahead ts) :
    ∀ t ∈ ts, t.kind ≠ .endOfText →
      ∃ read, t.StandsIn (before ++ ahead) read ∧ before <+: read := by
  induction ts generalizing before ahead with
  | nil => simp
  | cons t ts ih =>
    obtain ⟨gap, behind, -, hahead, hplace, hspelling, hshape, hts⟩ := h
    intro u hu hkind
    rcases List.mem_cons.1 hu with rfl | hu
    · refine ⟨before ++ gap, ⟨⟨behind, ?_⟩, hplace, hshape.head? hkind hspelling⟩,
        List.prefix_append _ _⟩
      rw [hahead, List.append_assoc]
    · obtain ⟨read, hread, hbefore⟩ := ih hts u hu hkind
      refine ⟨read, ?_, ?_⟩
      · simpa [hahead] using hread
      · rw [List.append_assoc] at hbefore
        exact (List.prefix_append _ _).trans hbefore

theorem Spelled.pairwise_standsIn {before ahead : List Char} {ts : List Token}
    (h : Spelled before ahead ts) :
    ts.Pairwise fun t u => t.kind ≠ .endOfText → u.kind ≠ .endOfText →
      ∃ read later, t.StandsIn (before ++ ahead) read ∧ u.StandsIn (before ++ ahead) later ∧
        read ++ t.spelling.toList <+: later := by
  induction ts generalizing before ahead with
  | nil => exact List.Pairwise.nil
  | cons t ts ih =>
    obtain ⟨gap, behind, -, hahead, hplace, hspelling, hshape, hts⟩ := h
    have htext : before ++ gap ++ t.spelling.toList ++ behind = before ++ ahead := by
      simp [hahead]
    constructor
    · intro u hu ht hk
      obtain ⟨later, hlater, hprefix⟩ := hts.standsIn u hu hk
      rw [htext] at hlater
      refine ⟨before ++ gap, later, ⟨⟨behind, ?_⟩, hplace, hshape.head? ht hspelling⟩, hlater,
        hprefix⟩
      rw [← htext, List.append_assoc]
    · rw [← htext]
      exact ih hts

namespace Highlight

/-! ## Reading numbers back -/

/-- Five numbers: a line, a start, a length, a class and its modifiers. -/
structure Entry where
  line : Int
  start : Int
  length : Int
  cls : Int
  modifiers : Int
deriving DecidableEq, Repr

/-- Numbers in groups of five; there are no groups where some numbers are left over. -/
def groups? : List Int → Option (List Entry)
  | [] => some []
  | line :: start :: length :: cls :: modifiers :: rest =>
    (groups? rest).map (⟨line, start, length, cls, modifiers⟩ :: ·)
  | _ => none

/-- Entries that are relative to the entry before them, behind one at a line and a start. Lines add
up, and so do starts within a line. -/
def absolute (line start : Int) : List Entry → List Entry
  | [] => []
  | e :: rest =>
    let here := if e.line = 0 then start + e.start else e.start
    { e with line := line + e.line, start := here } :: absolute (line + e.line) here rest

/-- What is to be read for a token: its line from zero, the UTF-16 offset of its column in that
line, the UTF-16 length of the first line of its spelling, and its class. -/
def shown? (scope : Option Scope) (text : String) (t : Token) : Option Entry :=
  (classify scope t).map fun c =>
    { line := t.place.line - 1
      start := Text.units
        (((Text.lines text)[t.place.line - 1]?.getD "").toList.take (t.place.column - 1))
      length := Text.units (t.spelling.toList.takeWhile (· != '\n'))
      cls := c.1.code
      modifiers := c.2.code }

def Mark.entry (m : Mark) : Entry :=
  ⟨m.line, m.start, m.length, m.cls.code, m.modifier.code⟩

/-- The entry of a mark behind a line and a start. -/
def Mark.relativeEntry (line start : Nat) (m : Mark) : Entry :=
  { m.entry with
    line := (m.line : Int) - line
    start := if m.line = line then (m.start : Int) - start else m.start }

/-- The entries of marks, each relative to the one before it. -/
def relativeEntries (line start : Nat) : List Mark → List Entry
  | [] => []
  | m :: rest => m.relativeEntry line start :: relativeEntries m.line m.start rest

theorem groups?_encodeFrom (line start : Nat) (ms : List Mark) :
    groups? (encodeFrom line start ms) = some (relativeEntries line start ms) ∧
      (encodeFrom line start ms).length = 5 * (relativeEntries line start ms).length := by
  induction ms generalizing line start with
  | nil => exact ⟨rfl, rfl⟩
  | cons m ms ih =>
    obtain ⟨hgroups, hlength⟩ := ih m.line m.start
    constructor
    · simp only [encodeFrom, relative, List.cons_append, List.nil_append, groups?, hgroups,
        Option.map_some, relativeEntries]
      rfl
    · simp only [encodeFrom, relative, List.length_append, List.length_cons, List.length_nil,
        hlength, relativeEntries]
      omega

/-- Adding up gives the marks, wherever they stand. -/
theorem absolute_relativeEntries (line start : Nat) (ms : List Mark) :
    absolute line start (relativeEntries line start ms) = ms.map Mark.entry := by
  induction ms generalizing line start with
  | nil => rfl
  | cons m ms ih =>
    have hline : (line : Int) + ((m.line : Int) - line) = m.line := by omega
    have hstart : (if (m.line : Int) - line = 0 then
        (start : Int) + (if m.line = line then (m.start : Int) - start else m.start)
        else if m.line = line then (m.start : Int) - start else m.start) = m.start := by
      split <;> split <;> omega
    simp only [relativeEntries, absolute, Mark.relativeEntry, hline, hstart, ih, List.map_cons]
    rfl

/-- One mark before another one: in an earlier line, or ending before it in its line. -/
def Mark.Before (m n : Mark) : Prop :=
  m.line < n.line ∨ m.line = n.line ∧ m.start + m.length ≤ n.start

/-- Marks that stand one behind the other have no negative differences. -/
theorem relativeEntries_nonneg {line start : Nat} {ms : List Mark}
    (hfirst : ∀ m ∈ ms, line < m.line ∨ line = m.line ∧ start ≤ m.start)
    (hms : ms.Pairwise Mark.Before) (hlength : ∀ m ∈ ms, 0 < m.length) :
    ∀ e ∈ relativeEntries line start ms, 0 ≤ e.line ∧ 0 ≤ e.start ∧ 0 < e.length := by
  induction ms generalizing line start with
  | nil => simp [relativeEntries]
  | cons m ms ih =>
    obtain ⟨hbefore, hrest⟩ := List.pairwise_cons.1 hms
    intro e he
    rcases List.mem_cons.1 he with rfl | he
    · have hm := hfirst m List.mem_cons_self
      have hl := hlength m List.mem_cons_self
      simp only [Mark.relativeEntry, Mark.entry]
      refine ⟨?_, ?_, ?_⟩
      · omega
      · split <;> omega
      · omega
    · refine ih ?_ hrest (fun n hn => hlength n (List.mem_cons_of_mem m hn)) e he
      intro n hn
      rcases hbefore n hn with hlt | ⟨heq, hle⟩
      · exact .inl hlt
      · exact .inr ⟨heq, by omega⟩

/-! ## The marks of a text -/

section Marks

variable {scope : Option Scope} {text : String} {t u : Token} {read later : List Char}

theorem kind_ne_of_mark? {lines : Array String} {m : Mark} (h : mark? lines scope t = some m) :
    t.kind ≠ .endOfText := by
  intro hend
  simp [mark?, classify, hend] at h

/-- The line of a token: what is before the token, the first line of the token, and what is behind
it. -/
theorem line_of_standsIn (h : t.StandsIn text.toList read) :
    ∃ rest, (Text.lines text)[read.count '\n']? = some (String.ofList
      (lastLine read ++ (t.spelling.toList.takeWhile (· != '\n') ++ rest))) := by
  obtain ⟨behind, htext⟩ := h.text_eq
  have hline := Text.lines_behind htext
  rw [List.takeWhile_append] at hline
  split at hline
  · rename_i hall
    have hwhole : t.spelling.toList.takeWhile (· != '\n') = t.spelling.toList :=
      (List.takeWhile_prefix _).eq_of_length hall
    rw [hwhole]
    exact ⟨_, hline⟩
  · refine ⟨[], ?_⟩
    rw [hline, List.append_nil]

theorem firstLine_pos (h : t.StandsIn text.toList read) :
    0 < Text.units (t.spelling.toList.takeWhile (· != '\n')) := by
  obtain ⟨c, w, hspelling, hc⟩ := h.head_ne
  have hpos := Text.charUnits_pos c
  simp only [hspelling, List.takeWhile_cons, bne_iff_ne, ne_eq, hc, not_false_eq_true, if_true,
    Text.units_cons]
  omega

/-- The mark of a token that stands in a text. -/
theorem mark?_of_standsIn (h : t.StandsIn text.toList read) :
    mark? (Text.lines text).toArray scope t = (classify scope t).map fun c =>
      ⟨read.count '\n', Text.units (lastLine read),
        Text.units (t.spelling.toList.takeWhile (· != '\n')), c.1, c.2⟩ := by
  obtain ⟨rest, hline⟩ := line_of_standsIn h
  have hlength := firstLine_pos h
  have hstart : startOf (Text.lines text).toArray t.place = Text.units (lastLine read) := by
    rw [h.place_eq, Place.behind_eq, Nat.add_comm 1, Nat.add_comm 1]
    simp [startOf, hline]
  have hplace : t.place.line - 1 = read.count '\n' := by
    rw [h.place_eq, Place.behind_eq]
    simp
  unfold mark?
  cases classify scope t with
  | none => rfl
  | some c =>
    dsimp only
    rw [if_neg (by omega), hstart, hplace]
    rfl

theorem shown?_of_standsIn (h : t.StandsIn text.toList read) :
    shown? scope text t = (mark? (Text.lines text).toArray scope t).map Mark.entry := by
  obtain ⟨rest, hline⟩ := line_of_standsIn h
  rw [mark?_of_standsIn h, shown?]
  cases classify scope t with
  | none => rfl
  | some c =>
    rw [h.place_eq, Place.behind_eq]
    simp [Mark.entry, hline]

theorem lastLine_of_prefix {w : List Char} (h : read ++ w <+: later) :
    read.count '\n' < later.count '\n' ∨
      '\n' ∉ w ∧ read.count '\n' = later.count '\n' ∧ lastLine read ++ w <+: lastLine later := by
  obtain ⟨more, rfl⟩ := h
  rw [List.append_assoc]
  by_cases hline : '\n' ∈ w ++ more
  · left
    have := List.count_pos_iff.2 hline
    rw [List.count_append]
    omega
  · right
    refine ⟨fun hw => hline (List.mem_append_left _ hw), ?_, ?_⟩
    · rw [List.count_append, List.count_eq_zero.2 hline]
      omega
    · rw [lastLine_append_of_not_mem hline, ← List.append_assoc]
      exact List.prefix_append _ _

theorem mark?_before (ht : t.StandsIn text.toList read) (hu : u.StandsIn text.toList later)
    (h : read ++ t.spelling.toList <+: later) :
    ∀ m ∈ mark? (Text.lines text).toArray scope t, ∀ n ∈ mark? (Text.lines text).toArray scope u,
      m.Before n := by
  intro m hm n hn
  rw [mark?_of_standsIn ht, Option.mem_map] at hm
  rw [mark?_of_standsIn hu, Option.mem_map] at hn
  obtain ⟨c, -, rfl⟩ := hm
  obtain ⟨d, -, rfl⟩ := hn
  rcases lastLine_of_prefix h with hlt | ⟨hline, hcount, more, hmore⟩
  · exact .inl hlt
  · refine .inr ⟨hcount, ?_⟩
    have hwhole : t.spelling.toList.takeWhile (· != '\n') = t.spelling.toList := by
      rw [List.takeWhile_eq_self_iff]
      intro c hc
      exact bne_iff_ne.2 fun heq => hline (heq ▸ hc)
    simp only [hwhole, ← hmore, Text.units_append]
    omega

end Marks

/-- The marks of a text are those of all its tokens. -/
theorem marks_tokenize (ref : Option Reference) (limit : Int) (scope : Option Scope)
    (text : String) :
    marks (Text.lines text).toArray scope (tokenize ref limit text).1 =
        (tokenize ref limit text).1.filterMap (mark? (Text.lines text).toArray scope) ∧
      (marks (Text.lines text).toArray scope (tokenize ref limit text).1).map Mark.entry =
        (tokenize ref limit text).1.filterMap (shown? scope text) := by
  have hspelled := tokenize_spelled ref limit text
  obtain ⟨ts, last, htokens, hlast, hts⟩ := tokenize_endsOnce ref limit text
  rw [htokens] at hspelled ⊢
  have hclass : classify scope last = none := by
    simp [classify, hlast]
  have hfront : (ts ++ [last]).takeWhile (fun t => t.kind != .endOfText) = ts := by
    rw [List.takeWhile_append_of_pos (by simpa using hts)]
    simp [hlast]
  have hmark : mark? (Text.lines text).toArray scope last = none := by
    simp [mark?, hclass]
  have hshown : shown? scope text last = none := by
    simp [shown?, hclass]
  rw [marks, hfront]
  constructor
  · simp [hmark]
  · rw [List.map_filterMap, List.filterMap_append]
    simp only [List.filterMap_cons, hshown, List.filterMap_nil, List.append_nil]
    apply List.filterMap_congr
    intro t ht
    obtain ⟨read, hread, -⟩ := hspelled.standsIn t (List.mem_append_left _ ht) (hts t ht)
    exact (shown?_of_standsIn hread).symm

/-- A mark belongs to a token that stands in the text. -/
theorem standsIn_of_mark? {ref : Option Reference} {limit : Int} {scope : Option Scope}
    {text : String} {t : Token} {m : Mark} (ht : t ∈ (tokenize ref limit text).1)
    (hm : mark? (Text.lines text).toArray scope t = some m) :
    ∃ read, t.StandsIn text.toList read := by
  obtain ⟨read, hread, -⟩ :=
    (tokenize_spelled ref limit text).standsIn t ht (kind_ne_of_mark? hm)
  exact ⟨read, hread⟩

theorem marks_pairwise (ref : Option Reference) (limit : Int) (scope : Option Scope)
    (text : String) :
    (marks (Text.lines text).toArray scope (tokenize ref limit text).1).Pairwise Mark.Before := by
  rw [(marks_tokenize ref limit scope text).1, List.pairwise_filterMap]
  refine (tokenize_spelled ref limit text).pairwise_standsIn.imp ?_
  intro t u h m hm n hn
  obtain ⟨read, later, hread, hlater, hprefix⟩ := h (kind_ne_of_mark? hm) (kind_ne_of_mark? hn)
  exact mark?_before hread hlater hprefix m hm n hn

theorem marks_within (ref : Option Reference) (limit : Int) (scope : Option Scope)
    (text : String) :
    ∀ m ∈ marks (Text.lines text).toArray scope (tokenize ref limit text).1, 0 < m.length ∧
      ∃ line, (Text.lines text)[m.line]? = some line ∧
        m.start + m.length ≤ Text.utf16Length line := by
  rw [(marks_tokenize ref limit scope text).1]
  intro m hm
  obtain ⟨t, ht, hmark⟩ := List.mem_filterMap.1 hm
  obtain ⟨read, hread⟩ := standsIn_of_mark? ht hmark
  have hpos := firstLine_pos hread
  obtain ⟨rest, hline⟩ := line_of_standsIn hread
  rw [mark?_of_standsIn hread] at hmark
  obtain ⟨c, -, rfl⟩ := Option.map_eq_some_iff.1 hmark
  refine ⟨hpos, _, hline, ?_⟩
  simp only [Text.utf16Length, String.toList_ofList, Text.units_append]
  omega

/-- **An editor reads the shown tokens of a text from its numbers.** The numbers come in groups of
five, without negative differences and without empty lengths. Added up they are, in order, the
lines, offsets, lengths and classes of the tokens that have a class. In a line each token starts at
or behind the end of the one before it, and none reaches beyond the line. -/
theorem encode_decodes (ref : Option Reference) (limit : Int) (scope : Option Scope)
    (text : String) :
    ∃ entries, groups? (encode scope text (tokenize ref limit text).1) = some entries ∧
      (encode scope text (tokenize ref limit text).1).length = 5 * entries.length ∧
      (∀ e ∈ entries, 0 ≤ e.line ∧ 0 ≤ e.start ∧ 0 < e.length) ∧
      absolute 0 0 entries = (tokenize ref limit text).1.filterMap (shown? scope text) ∧
      (absolute 0 0 entries).Pairwise
        (fun a b => a.line < b.line ∨ a.line = b.line ∧ a.start + a.length ≤ b.start) ∧
      ∀ e ∈ absolute 0 0 entries, ∃ line, (Text.lines text)[e.line.toNat]? = some line ∧
        0 ≤ e.line ∧ e.start + e.length ≤ Text.utf16Length line := by
  have hmarks := (marks_tokenize ref limit scope text).2
  have hpairwise := marks_pairwise ref limit scope text
  have hwithin := marks_within ref limit scope text
  unfold encode
  generalize marks (Text.lines text).toArray scope (tokenize ref limit text).1 = ms at *
  obtain ⟨hgroups, hlength⟩ := groups?_encodeFrom 0 0 ms
  have habsolute : absolute 0 0 (relativeEntries 0 0 ms) = ms.map Mark.entry :=
    absolute_relativeEntries 0 0 ms
  refine ⟨relativeEntries 0 0 ms, hgroups, hlength, ?_, habsolute.trans hmarks, ?_, ?_⟩
  · apply relativeEntries_nonneg _ hpairwise (fun m hm => (hwithin m hm).1)
    intro m _
    omega
  · rw [habsolute, List.pairwise_map]
    refine hpairwise.imp ?_
    intro m n h
    simp only [Mark.Before, Mark.entry] at h ⊢
    omega
  · rw [habsolute]
    intro e he
    obtain ⟨m, hm, rfl⟩ := List.mem_map.1 he
    obtain ⟨-, line, hline, hle⟩ := hwithin m hm
    simp only [Mark.entry, Int.toNat_natCast]
    exact ⟨line, hline, by omega, by omega⟩

end Highlight

end Asm6510
