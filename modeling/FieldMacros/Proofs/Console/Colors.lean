import FieldMacros.Console.Escape
import FieldMacros.Console.Status
import FieldMacros.Proofs.Diff.Faithful
import FieldMacros.Proofs.Text.Encoding
import FieldMacros.Proofs.Text.Pieces

/-!
# Colours

With colours an output has control sequences between its texts, without them it
is the texts alone. `Appears s seen codes` is how a terminal takes a text
wherever it stands: what is seen of it and what its control sequences ask for.
What is seen of any output is what it is without colours
(`exists_appears_render`), provided that no escape character gets into it from
outside, and everything that sets a style resets it in the end
(`colored_output`).
-/

namespace FieldMacros.Console

open Diff Text

/-! ## Reading control sequences -/

/-- A text is taken in the same way whatever follows it. -/
structure Appears (s : String) (seen : List Char) (codes : List (List Char)) : Prop where
  stripped_append : ∀ rest, stripped (s.toList ++ rest) = seen ++ stripped rest
  sequences_append : ∀ rest, sequences (s.toList ++ rest) = codes ++ sequences rest

theorem Appears.append {s t : String} {seen seen' : List Char} {codes codes' : List (List Char)}
    (hs : Appears s seen codes) (ht : Appears t seen' codes') :
    Appears (s ++ t) (seen ++ seen') (codes ++ codes') where
  stripped_append rest := by
    rw [String.toList_append, List.append_assoc, hs.stripped_append, ht.stripped_append,
      List.append_assoc]
  sequences_append rest := by
    rw [String.toList_append, List.append_assoc, hs.sequences_append, ht.sequences_append,
      List.append_assoc]

/-- Whatever is no escape character begins no control sequence. -/
theorem read_cons {c : Char} (hc : c ≠ '\x1b') (cs : List Char) :
    stripped (c :: cs) = c :: stripped cs ∧ sequences (c :: cs) = sequences cs := by
  rw [stripped, sequences]
  · exact ⟨rfl, rfl⟩
  · exact fun _ he _ => hc he
  · exact fun _ he _ => hc he

theorem read_append {cs : List Char} (h : '\x1b' ∉ cs) (rest : List Char) :
    stripped (cs ++ rest) = cs ++ stripped rest ∧ sequences (cs ++ rest) = sequences rest := by
  induction cs with
  | nil => exact ⟨rfl, rfl⟩
  | cons c cs ih =>
    rw [List.mem_cons, not_or] at h
    obtain ⟨hstripped, hsequences⟩ := read_cons (Ne.symm h.1) (cs ++ rest)
    obtain ⟨ihstripped, ihsequences⟩ := ih h.2
    rw [List.cons_append, hstripped, hsequences, ihstripped, ihsequences]
    exact ⟨rfl, rfl⟩

/-- Without an escape character all of a text is seen. -/
theorem appears_text {s : String} (h : '\x1b' ∉ s.toList) : Appears s s.toList [] where
  stripped_append rest := (read_append h rest).1
  sequences_append rest := (read_append h rest).2

theorem afterSequence_append {code : List Char} (h : 'm' ∉ code) (rest : List Char) :
    afterSequence (code ++ 'm' :: rest) = rest := by
  rw [afterSequence, (span_ne h rest).2]
  rfl

/-- Of a control sequence nothing is seen. -/
theorem appears_escape {code : String} (h : 'm' ∉ code.toList) :
    Appears (escape code) [] [code.toList] := by
  have htext : ∀ rest, (escape code).toList ++ rest =
      '\x1b' :: '[' :: (code.toList ++ 'm' :: rest) := by
    intro rest
    unfold escape
    rw [String.toList_append, String.toList_append, List.append_assoc, List.append_assoc]
    rfl
  constructor
  · intro rest
    rw [htext, stripped, afterSequence_append h, List.nil_append]
  · intro rest
    rw [htext, sequences, (span_ne h rest).1, afterSequence_append h, List.singleton_append]

theorem appears_reset : Appears resetSequence [] [['0']] :=
  appears_escape (by decide)

theorem Appears.stripped_eq {s : String} {seen : List Char} {codes : List (List Char)}
    (h : Appears s seen codes) : stripped s.toList = seen := by
  have hall := h.stripped_append []
  have hnil : stripped [] = [] := by rw [stripped]
  rwa [hnil, List.append_nil, List.append_nil] at hall

theorem Appears.sequences_eq {s : String} {seen : List Char} {codes : List (List Char)}
    (h : Appears s seen codes) : sequences s.toList = codes := by
  have hall := h.sequences_append []
  have hnil : sequences [] = [] := by rw [sequences]
  rwa [hnil, List.append_nil, List.append_nil] at hall

/-! ## Styled output -/

theorem exists_appears_sequence (s : Style) : ∃ codes, Appears s.sequence [] codes := by
  have hflag : ∀ (b : Bool) (code : String), 'm' ∉ code.toList →
      ∃ codes, Appears (if b then escape code else "") [] codes := by
    intro b code hcode
    cases b with
    | true => exact ⟨_, appears_escape hcode⟩
    | false => exact ⟨_, appears_text (s := "") (by decide)⟩
  have hcolor : ∃ codes, Appears (s.color.elim "" Color.sequence) [] codes := by
    cases s.color with
    | none => exact ⟨_, appears_text (s := "") (by decide)⟩
    | some c => cases c <;> exact ⟨_, appears_escape (by decide)⟩
  obtain ⟨bold, hbold⟩ := hflag s.bold "1" (by decide)
  obtain ⟨dimmed, hdimmed⟩ := hflag s.dimmed "2" (by decide)
  obtain ⟨color, hcolor⟩ := hcolor
  exact ⟨_, ((appears_reset.append hbold).append hdimmed).append hcolor⟩

/-- A piece brings no escape character from outside. -/
def Piece.Clean : Piece → Prop
  | .text s => '\x1b' ∉ s.toList
  | _ => True

theorem render_cons (colors : Bool) (p : Piece) (ps : List Piece) :
    render colors (p :: ps) = p.render colors ++ render colors ps := by
  rw [render, List.map_cons, String.join_cons, render]

/-- With colours an output is seen as it is without them. -/
theorem exists_appears_render {ps : List Piece} (h : ∀ p ∈ ps, p.Clean) :
    ∃ codes, Appears (render true ps) (render false ps).toList codes := by
  induction ps with
  | nil => exact ⟨[], appears_text (s := "") (by decide)⟩
  | cons p ps ih =>
    rw [List.forall_mem_cons] at h
    obtain ⟨codes, hps⟩ := ih h.2
    have hp : ∃ codes, Appears (p.render true) (p.render false).toList codes := by
      cases p with
      | text s => exact ⟨[], appears_text h.1⟩
      | style s => exact exists_appears_sequence s
      | reset => exact ⟨_, appears_reset⟩
    obtain ⟨codes', hp⟩ := hp
    rw [render_cons, render_cons, String.toList_append]
    exact ⟨_, hp.append hps⟩

theorem escape_not_mem_render {ps : List Piece} (h : ∀ p ∈ ps, p.Clean) :
    '\x1b' ∉ (render false ps).toList := by
  refine not_mem_join fun l hl => ?_
  obtain ⟨p, hp, rfl⟩ := List.mem_map.1 hl
  cases p with
  | text s => exact h _ hp
  | style s => exact List.not_mem_nil
  | reset => exact List.not_mem_nil

/-- Behind the last piece that has to do with style, which is a reset, there are texts only. -/
def Resets (out : List Piece) : Prop :=
  ∃ (ps : List Piece) (texts : List String), out = ps ++ .reset :: texts.map .text

theorem render_map_text (colors : Bool) (texts : List String) :
    render colors (texts.map .text) = String.join texts := by
  have hsame : Piece.render colors ∘ Piece.text = id := rfl
  rw [render, List.map_map, hsame, List.map_id]

theorem colored_of_resets {out : List Piece} (h : ∀ p ∈ out, p.Clean) (hresets : Resets out) :
    String.ofList (stripped (render true out).toList) = render false out ∧
      '\x1b' ∉ (render false out).toList ∧
      (sequences (render true out).toList).getLast? = some ['0'] := by
  have hplain := escape_not_mem_render h
  obtain ⟨ps, texts, rfl⟩ := hresets
  rw [List.forall_mem_append, List.forall_mem_cons] at h
  obtain ⟨hps, -, htexts⟩ := h
  have htexts := escape_not_mem_render htexts
  rw [render_map_text] at htexts
  obtain ⟨codes, happears⟩ := exists_appears_render hps
  have hall := (happears.append appears_reset).append (appears_text htexts)
  have hcolored : render true (ps ++ .reset :: texts.map .text) =
      render true ps ++ resetSequence ++ String.join texts := by
    rw [render_append, render_cons, render_map_text, String.append_assoc]
    rfl
  have hrest : render false (ps ++ .reset :: texts.map .text) =
      render false ps ++ String.join texts := by
    rw [render_append, render_cons, render_map_text]
    exact congrArg _ String.empty_append
  refine ⟨?_, hplain, ?_⟩
  · rw [hcolored, hrest, hall.stripped_eq, List.append_nil, ← String.toList_append,
      String.ofList_toList]
  · rw [hcolored, hall.sequences_eq, List.append_nil]
    exact List.getLast?_concat

/-! ## Texts from outside -/

/-- A path is displayed with an escape character only if it has one. -/
theorem escape_not_mem_display {path : Bytes} (h : 0x1B ∉ path) :
    '\x1b' ∉ path.display.toList := by
  intro hmem
  unfold Bytes.display Bytes.shown at hmem
  rw [String.toList_ofList] at hmem
  obtain ⟨c, hc, heq⟩ := List.mem_map.1 hmem
  cases c with
  | none => cases heq
  | some c =>
    have heq : c = '\x1b' := heq
    rw [heq] at hc
    exact h (Bytes.mem_of_mem_decode (by decide) (by decide) hc)

theorem escape_not_mem_marked {mark : String} (hmark : '\x1b' ∉ mark.toList) {ls : List String}
    (h : ∀ l ∈ ls, '\x1b' ∉ l.toList) : '\x1b' ∉ (marked mark ls).toList := by
  refine not_mem_join fun l hl => ?_
  obtain ⟨k, hk, rfl⟩ := List.mem_map.1 hl
  exact not_mem_append (not_mem_append hmark (h k hk)) (by decide)

theorem clean_chunk {c : Chunk} (h : ∀ p ∈ pieces c.text, '\x1b' ∉ p.toList) :
    ∀ p ∈ chunk c, p.Clean := by
  have hlines : ∀ l ∈ lines c.text, '\x1b' ∉ l.toList := not_mem_of_mem_linesOfPieces h
  unfold chunk
  dsimp only
  split
  · exact List.forall_mem_cons.2 ⟨trivial, List.forall_mem_singleton.2 (not_mem_append
      (not_mem_append (by decide) (Numeral.not_mem_repr (by decide) _)) (by decide))⟩
  · exact List.forall_mem_cons.2 ⟨trivial, List.forall_mem_singleton.2
      (escape_not_mem_marked (by decide) hlines)⟩
  · exact List.forall_mem_cons.2 ⟨trivial, List.forall_mem_singleton.2
      (escape_not_mem_marked (by decide) hlines)⟩

section Outputs

variable {path : Bytes} (hpath : 0x1B ∉ path)

include hpath

theorem clean_written (d : Depth) : ∀ p ∈ written path d, p.Clean := by
  have hgenerated : (Piece.text "generated").Clean := show '\x1b' ∉ "generated".toList by decide
  have hrange : '\x1b' ∉ (" MANGROVE_CHILD1..MANGROVE_CHILD" ++ d.level.repr ++ " -> ").toList :=
    not_mem_append (not_mem_append (by decide) (Numeral.not_mem_repr (by decide) _)) (by decide)
  simp only [written, List.forall_mem_cons]
  exact ⟨trivial, hgenerated, trivial, not_mem_append
    (not_mem_append hrange (escape_not_mem_display hpath)) (by decide), nofun⟩

theorem clean_upToDate : ∀ p ∈ upToDate path, p.Clean := by
  simp only [upToDate, List.forall_mem_cons]
  exact ⟨trivial, not_mem_append (escape_not_mem_display hpath) (by decide), trivial, nofun⟩

theorem clean_diff {existing generated : String} (hexisting : '\x1b' ∉ existing.toList)
    (hgenerated : '\x1b' ∉ generated.toList) : ∀ p ∈ diff path existing generated, p.Clean := by
  have hdisplay := escape_not_mem_display hpath
  have hold : '\x1b' ∉ ("--- " ++ path.display ++ " (on disk)\n+++ ").toList :=
    not_mem_append (not_mem_append (by decide) hdisplay) (by decide)
  have htitle : (Piece.text (diffTitle path)).Clean :=
    not_mem_append (not_mem_append hold hdisplay) (by decide)
  unfold diff
  simp only [List.forall_mem_append, List.forall_mem_cons]
  refine ⟨⟨⟨trivial, htitle, trivial, nofun⟩, ?_⟩, trivial, nofun⟩
  intro p hp
  obtain ⟨c, hc, hp⟩ := List.mem_flatMap.1 hp
  refine clean_chunk (fun q hq hmem => ?_) p hp
  rcases mem_pieces_of_mem_script hc hq with h | h
  · exact hexisting (mem_of_mem_pieces h hmem)
  · exact hgenerated (mem_of_mem_pieces h hmem)

end Outputs

/-- Provided that no escape character comes from outside, control sequences are all that an output
with colours has in addition, there are none without colours, and the last one resets the style. -/
theorem colored_output (d : Depth) {path : Bytes} {existing generated : String}
    (hpath : 0x1B ∉ path) (hexisting : '\x1b' ∉ existing.toList)
    (hgenerated : '\x1b' ∉ generated.toList) :
    ∀ ps ∈ [written path d, upToDate path, diff path existing generated],
      String.ofList (stripped (render true ps).toList) = render false ps ∧
        '\x1b' ∉ (render false ps).toList ∧
        (sequences (render true ps).toList).getLast? = some ['0'] := by
  have hwritten : Resets (written path d) := ⟨[_, _], [_], rfl⟩
  have hupToDate : Resets (upToDate path) := ⟨[_, _], [], rfl⟩
  have hdiff : Resets (diff path existing generated) := ⟨_, [], rfl⟩
  simp only [List.forall_mem_cons]
  exact ⟨colored_of_resets (clean_written hpath d) hwritten,
    colored_of_resets (clean_upToDate hpath) hupToDate,
    colored_of_resets (clean_diff hpath hexisting hgenerated) hdiff, nofun⟩

/-- A blank line is added: its chunk sets a style and prints nothing. -/
theorem colored_output_blank :
    let out := diff [0x6D] "a" "a\n"
    (0x1B ∉ ([0x6D] : Bytes) ∧ '\x1b' ∉ "a".toList ∧ '\x1b' ∉ "a\n".toList) ∧
      String.ofList (stripped (render true out).toList) = render false out ∧
      '\x1b' ∉ (render false out).toList ∧
      (sequences (render true out).toList).getLast? = some ['0'] := by
  intro out
  have hpath : 0x1B ∉ ([0x6D] : Bytes) := by decide
  have hexisting : '\x1b' ∉ "a".toList := by decide
  have hgenerated : '\x1b' ∉ "a\n".toList := by decide
  have hout : out ∈ [written [0x6D] .one, upToDate [0x6D], diff [0x6D] "a" "a\n"] :=
    List.mem_cons_of_mem _ (List.mem_cons_of_mem _ List.mem_cons_self)
  exact ⟨⟨hpath, hexisting, hgenerated⟩, colored_output .one hpath hexisting hgenerated out hout⟩

end FieldMacros.Console
