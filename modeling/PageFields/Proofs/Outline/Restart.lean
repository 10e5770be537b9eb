import PageFields.Proofs.Outline.Concat

/-! # Outlines: a scan that goes on is a new start

Outside regions a scan has nothing open. So what it reads from there on, with the outline it has and
on the line it has come to, it reads as a text of its own, and puts the outline of that text behind
the one it has (`foldlM_restart`). It comes outside again where the region that it is in is closed
(`exists_end`). -/

namespace PageFields

namespace Segment

open Lexer

theorem ofTextFrom_eq_relined (line : Nat) (t : Text) :
    ofTextFrom line t = (ofText t).map (map (Token.relined (· - 1 + line))) := by
  have hone : number 1 (lexemes .text t) = (number 0 (lexemes .text t)).map (Token.moved 1) :=
    number_add 0 1 _
  have hline : number line (lexemes .text t) =
      (number 0 (lexemes .text t)).map (Token.moved line) := by
    rw [← number_add, Nat.zero_add]
  have hmoved : Token.moved line = Token.relined (· - 1 + line) ∘ Token.moved 1 := by
    funext u
    simp [Token.moved, Token.relined]
  rw [ofTextFrom, hline, hmoved, ← List.map_map, ← hone,
    ofTokens_map (f := Token.relined _) (fun _ => rfl)]
  rfl

end Segment

namespace Scan

open Segment

variable {depth line : Nat} {o p w : Outline} {r : OpenRegion} {t : Text} {segs : List Segment}

theorem apart_relined {g : Nat → Nat} : o.Apart (p.relined g) ↔ o.Apart p := by
  simp [Outline.Apart, Outline.relined, Region.relined]

theorem relined_eq_outside {g : Nat → Nat} {σ : State} :
    σ.relined g = ⟨w, none⟩ ↔ ∃ p, σ = ⟨p, none⟩ ∧ w = p.relined g := by
  obtain ⟨p, c⟩ := σ
  cases c with
  | none => simp [State.relined, eq_comm]
  | some r => simp [State.relined]

/-- **A scan that goes on outside regions** is a scan of the rest, if no name comes again. -/
theorem foldlM_restart :
    ((ofTextFrom line t).foldlM (step depth) ⟨o, none⟩).outcome = .ok ⟨w, none⟩ ↔
      ∃ p, (scanAt depth t).outcome = .ok p ∧ o.Apart p ∧
        w = o.append (p.relined (· - 1 + line)) := by
  have hstart : (⟨o, none⟩ : State) = (State.relined (· - 1 + line) {}).after o := by
    change _ = (⟨o.append {}, none⟩ : State)
    rw [Outline.append_empty]
  have hafter : ∀ (σ : State), (⟨w, none⟩ : State) = σ.after o ↔
      ∃ p, σ = ⟨p, none⟩ ∧ w = o.append p := by
    rintro ⟨p, c⟩
    simp [State.after, and_comm, eq_comm]
  rw [ofTextFrom_eq_relined, hstart, foldlM_after (Outline.apart_empty o)]
  simp only [foldlM_relined, reported_eq_ok, scanAt_eq_ok, hafter]
  constructor
  · rintro ⟨_, ⟨σ, hrun, rfl⟩, ha, q, hq, rfl⟩
    obtain ⟨p, rfl, rfl⟩ := relined_eq_outside.1 hq
    exact ⟨p, hrun, apart_relined.1 ha, rfl⟩
  · rintro ⟨p, hrun, ha, rfl⟩
    exact ⟨_, ⟨⟨p, none⟩, hrun, rfl⟩, apart_relined.2 ha, _, rfl, rfl⟩

theorem parent_of_restart {parent : Text}
    (h : ((ofTextFrom line t).foldlM (step depth) ⟨o, none⟩).outcome = .ok ⟨w, none⟩)
    (ho : o.parent = some parent) : w.parent = some parent := by
  obtain ⟨p, -, -, rfl⟩ := foldlM_restart.1 h
  rw [Outline.append, ho]
  rfl

/-- **A scan that leaves a region** comes to the first directive that closes one block too much. -/
theorem exists_end (hr : r.inner = 0)
    (h : (segs.foldlM (step depth) ⟨o, some r⟩).outcome = .ok ⟨w, none⟩) :
    ∃ inner e rest, segs = inner ++ .directive e :: rest ∧ depthAfter 0 inner = some 0 ∧
      e.isClosed = true ∧ e.hasKeyword Keyword.blockEnd = true ∧
      (rest.foldlM (step depth) ⟨{ o with
        regions := o.regions ++ [⟨r.name, r.content ++ sources inner, depth, r.line⟩] },
          none⟩).outcome = .ok ⟨w, none⟩ := by
  rcases depthAfter_cases 0 segs with ⟨m, hm⟩ | ⟨inner, e, rest, rfl, hi, he⟩
  · rw [← hr] at hm
    rw [foldlM_inside hm] at h
    cases h
  refine ⟨inner, e, rest, rfl, hi, ?_⟩
  rw [← hr] at hi
  rw [List.foldlM_append, foldlM_inside hi, pure_bind, List.foldlM_cons, Logged.outcome_bind,
    bind_eq_ok] at h
  obtain ⟨σ, hend, hrun⟩ := h
  obtain ⟨hcheck, -, rfl⟩ :=
    (stepInside_end_eq_ok (r := { r with content := r.content ++ sources inner }) he hr).1 hend
  exact ⟨(checkEnd_eq_ok.1 hcheck).1, he, hrun⟩

end Scan

end PageFields
