import Mathlib.Data.List.Forall2
import PageFields.Warning

/-! # Outcomes: taking a computation apart

A chain of steps succeeds when every step does, on the value of the one before (`bind_eq_ok`), and
what is only lifted gives no warning. Where the warnings matter, a chain is taken apart together
with them (`Logged.bind_eq_ok`). -/

namespace PageFields

variable {ε α β : Type}

theorem bind_eq_ok {x : Except ε α} {f : α → Except ε β} {b : β} :
    (x >>= f) = .ok b ↔ ∃ a, x = .ok a ∧ f a = .ok b := by
  cases x with
  | error e => simp [bind, Except.bind]
  | ok a => simp [bind, Except.bind]

@[simp] theorem ok_bind (a : α) (f : α → Except ε β) :
    ((.ok a : Except ε α) >>= f) = f a := rfl

@[simp] theorem error_bind (e : ε) (f : α → Except ε β) :
    ((.error e : Except ε α) >>= f) = .error e := rfl

theorem map_eq_ok {x : Except ε α} {f : α → β} {b : β} :
    x.map f = .ok b ↔ ∃ a, x = .ok a ∧ f a = b := by
  cases x with
  | error e => simp [Except.map]
  | ok a => simp [Except.map]

theorem bind_eq_error {x : Except ε α} {f : α → Except ε β} {e : ε} :
    (x >>= f) = .error e ↔ x = .error e ∨ ∃ a, x = .ok a ∧ f a = .error e := by
  cases x with
  | error e => simp [bind, Except.bind]
  | ok a => simp [bind, Except.bind]

theorem map_eq_error {x : Except ε α} {f : α → β} {e : ε} :
    x.map f = .error e ↔ x = .error e := by
  cases x with
  | error e => simp [Except.map]
  | ok a => simp [Except.map]

theorem mapM_eq_ok {f : α → Except ε β} {l : List α} {l' : List β} :
    l.mapM f = .ok l' ↔ List.Forall₂ (fun a b => f a = .ok b) l l' := by
  induction l generalizing l' with
  | nil =>
    rw [List.mapM_nil, List.forall₂_nil_left_iff]
    exact ⟨fun h => (Except.ok.inj h).symm, fun h => congrArg Except.ok h.symm⟩
  | cons a l ih =>
    rw [List.mapM_cons, bind_eq_ok, List.forall₂_cons_left_iff]
    refine exists_congr fun b => ?_
    rw [bind_eq_ok, exists_and_left]
    refine and_congr_right fun _ => exists_congr fun bs => and_congr ih ?_
    exact ⟨fun h => (Except.ok.inj h).symm, fun h => congrArg Except.ok h.symm⟩

theorem exists_mapM_eq_ok {f : α → Except ε β} {l : List α} :
    (∃ l', l.mapM f = .ok l') ↔ ∀ a ∈ l, ∃ b, f a = .ok b := by
  simp only [mapM_eq_ok]
  induction l with
  | nil => exact ⟨fun _ => nofun, fun _ => ⟨[], .nil⟩⟩
  | cons a l ih =>
    rw [List.forall_mem_cons, ← ih]
    constructor
    · rintro ⟨_, hb | ⟨ha, hl⟩⟩
      exact ⟨⟨_, ha⟩, _, hl⟩
    · rintro ⟨⟨b, ha⟩, l', hl⟩
      exact ⟨b :: l', .cons ha hl⟩

theorem mem_filterAuxM {f : α → Except ε Bool} {l acc kept : List α}
    (h : l.filterAuxM f acc = .ok kept) (a : α) :
    a ∈ kept ↔ a ∈ acc ∨ a ∈ l ∧ f a = .ok true := by
  induction l generalizing acc with
  | nil =>
    obtain rfl := Except.ok.inj h
    simp
  | cons c l ih =>
    obtain ⟨b, hb, h⟩ := bind_eq_ok.1 h
    have hhead : (a = c ∧ f a = .ok true) ↔ (a = c ∧ b = true) :=
      and_congr_right fun hac => by rw [hac, hb, Except.ok.injEq]
    rw [ih h, List.mem_cons, or_and_right, hhead]
    cases b with
    | false => simp
    | true => simp [or_assoc, or_left_comm]

theorem mem_filterM {f : α → Except ε Bool} {l kept : List α} (h : l.filterM f = .ok kept) (a : α) :
    a ∈ kept ↔ a ∈ l ∧ f a = .ok true := by
  obtain ⟨kept', h', hrev⟩ := bind_eq_ok.1 h
  obtain rfl := Except.ok.inj hrev
  rw [List.mem_reverse, mem_filterAuxM h' a]
  simp

theorem exists_of_filterM {f : α → Except ε Bool} {l kept : List α} (h : l.filterM f = .ok kept) :
    ∀ a ∈ l, ∃ b, f a = .ok b := by
  obtain ⟨kept', h', -⟩ := bind_eq_ok.1 h
  clear h
  generalize [] = acc at h'
  induction l generalizing acc with
  | nil => exact nofun
  | cons c l ih =>
    obtain ⟨b, hb, h'⟩ := bind_eq_ok.1 h'
    exact List.forall_mem_cons.2 ⟨⟨b, hb⟩, ih _ h'⟩

theorem toOption_eq_some {x : Except ε α} {a : α} : x.toOption = some a ↔ x = .ok a := by
  cases x <;> simp [Except.toOption]

namespace Logged

@[simp] theorem lift_ok (a : α) : lift (.ok a) = pure a := rfl

@[simp] theorem outcome_liftM (x : Except Error α) : (liftM x : Logged α).outcome = x := rfl

theorem liftM_bind_pure (x : Except Error α) (f : α → β) :
    ((liftM x : Logged α) >>= fun a => pure (f a)) = ⟨[], x.map f⟩ := by
  cases x <;> rfl

theorem warnings_bind_liftM (x : Logged α) (f : α → Except Error β) :
    (x >>= fun a => (liftM (f a) : Logged β)).warnings = x.warnings := by
  obtain ⟨us, x⟩ := x
  cases x with
  | error e => rfl
  | ok a => exact List.append_nil us

/-- Two steps succeed when each does, and they give the warnings of both. -/
theorem bind_eq_ok {x : Logged α} {f : α → Logged β} {ws : List Warning} {b : β} :
    (x >>= f) = ⟨ws, .ok b⟩ ↔
      ∃ us a vs, x = ⟨us, .ok a⟩ ∧ f a = ⟨vs, .ok b⟩ ∧ ws = us ++ vs := by
  obtain ⟨us, x⟩ := x
  change Logged.bind ⟨us, x⟩ f = _ ↔ _
  cases x with
  | error e => simp [Logged.bind]
  | ok a =>
    simp only [Logged.bind, mk.injEq, Except.ok.injEq]
    constructor
    · rintro ⟨rfl, hb⟩
      exact ⟨us, a, (f a).warnings, ⟨rfl, rfl⟩, by rw [← hb], rfl⟩
    · rintro ⟨_, _, vs, ⟨rfl, rfl⟩, hf, rfl⟩
      rw [hf]
      exact ⟨rfl, rfl⟩

end Logged

end PageFields
