import PageFields.Edit
import PageFields.Proofs.Directive.Normal
import PageFields.Proofs.Outline.Scan

/-! # Outlines: regions can stand elsewhere

The content of a region was read between the directives of its block. Read on its own it has the
same pieces (`Cut.exists_segments`), so it is self-contained (`Cut.selfContained`), and its name is
an identifier (`Cut.isFieldName`). Its normal form can then be written into another template. -/

namespace PageFields.Scan

open Lexer Segment

variable {s name content : Text}

theorem Cut.isInfix (h : Cut (ofText s) name content) : content <:+: s := by
  obtain ⟨before, d, inner, after, hsegs, -, -, rfl, -⟩ := h
  refine ⟨sources (before ++ [.directive d]), sources after, ?_⟩
  have := sources_ofTextFrom 1 s
  rw [ofTextFrom_one, hsegs] at this
  rw [← this]
  simp

/-- The content of a region, read on its own, has the segments and the pieces that it has in the
text, but for the lines. -/
theorem Cut.exists_segments (h : Cut (ofText s) name content) :
    ∃ line, (∀ seg ∈ ofTextFrom line content, seg.isClosed = true) ∧
      depthAfter 0 (ofTextFrom line content) = some 0 ∧ EndsOutside (lexemes .text content) ∧
      ∀ l ∈ lexemes .text content, l ∈ lexemes .text s := by
  obtain ⟨before, d, inner, after, hsegs, hne, -, rfl, hn⟩ := h
  have htok : ofTokens (tokenize s) = before ++ .directive d :: inner ++ after := hsegs
  have hclosed := isClosed_of_ofTokens htok hne
  have hafter : sources after ≠ [] := by
    obtain ⟨seg, after, rfl⟩ := List.exists_cons_of_ne_nil hne
    have hmem : seg ∈ ofText s := by rw [hsegs]; simp
    simp [source_ne_nil_of_mem_ofText hmem]
  -- first cut off what stands before the content, then what stands after it
  rw [← ofTextFrom_one, List.append_cons, List.append_assoc] at hsegs
  have hbefore : ∀ seg ∈ before ++ [.directive d], seg.isClosed = true := fun seg hseg =>
    hclosed seg (by rw [List.append_cons]; exact List.mem_append_left _ hseg)
  obtain ⟨hls, -, -, -⟩ := lexemes_split hsegs hbefore
  obtain ⟨-, hrest⟩ := ofTextFrom_split hsegs hbefore
  have hinner : ∀ seg ∈ inner, seg.isClosed = true := fun seg hseg =>
    hclosed seg (List.mem_append_right _ (List.mem_cons_of_mem _ hseg))
  obtain ⟨hls', -, -, hout⟩ := lexemes_split hrest hinner
  obtain ⟨hcontent, -⟩ := ofTextFrom_split hrest hinner
  refine ⟨_, hcontent.symm ▸ hinner, hcontent.symm ▸ hn, hout hafter, fun l hl => ?_⟩
  rw [hls, hls']
  exact List.mem_append_right _ (List.mem_append_left _ hl)

/-- The content of a region is self-contained, if no quote of the text is without its partner. -/
theorem Cut.selfContained (h : Cut (ofText s) name content)
    (hq : ∀ l ∈ lexemes .text s, ¬ LoneQuote l) : SelfContained content := by
  obtain ⟨line, -, hn, hout, hmem⟩ := h.exists_segments
  rw [depthAfter_ofTextFrom] at hn
  exact SelfContained.iff_settled.2 ⟨⟨hout, fun l hl => hq l (hmem l hl)⟩, hn⟩

theorem isFieldName_of_shape {m : Mode} (h : Shape m ⟨.name, name⟩) :
    Edit.isFieldName name = true := by
  match m, h with
  | .directive, ⟨c, cs, hv, hc, hcs⟩ =>
    obtain rfl : name = _ := hv
    simp only [Edit.isFieldName, Bool.and_eq_true, List.all_eq_true]
    exact ⟨hc, hcs⟩

theorem Cut.isFieldName (h : Cut (ofText s) name content) : Edit.isFieldName name = true := by
  obtain ⟨before, d, inner, after, hsegs, -, ⟨-, t, ht, hk, rfl⟩, -, -⟩ := h
  have hd : t ∈ d.words := List.mem_of_mem_tail (List.mem_of_head? ht)
  have htok : t ∈ tokenize s := by
    rw [← flatMap_tokens_ofTokens (tokenize s)]
    refine List.mem_flatMap.2 ⟨.directive d, ?_, ?_⟩
    · rw [← ofText, hsegs]
      simp
    · unfold tokens
      exact List.mem_append_left _ (List.mem_cons_of_mem _ (List.mem_of_mem_filter hd))
  obtain ⟨m, hs⟩ := shape_of_mem_lexemes (mem_number htok)
  rw [hk] at hs
  exact isFieldName_of_shape hs

end PageFields.Scan
