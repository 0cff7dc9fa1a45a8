/-!
# Computations that may be refused

What a successful outcome says about the steps that led to it.
-/

namespace Reparse

variable {ε α β : Type}

/-- Two steps succeed exactly when the first one does and the second one does
with its result. -/
theorem bind_eq_ok {first : Except ε α} {later : α → Except ε β} {result : β} :
    (first >>= later) = .ok result ↔
      ∃ value, first = .ok value ∧ later value = .ok result := by
  constructor
  · intro found
    cases first with
    | error => cases found
    | ok value => exact ⟨value, rfl, found⟩
  · rintro ⟨value, rfl, found⟩
    exact found

/-- A step with a result hands it on. -/
theorem bind_of_ok {first : Except ε α} {later : α → Except ε β} {value : α}
    (found : first = .ok value) : (first >>= later) = later value := by
  rw [found]
  rfl

/-- What is made of a result exists exactly when the result does. -/
theorem bind_pure_eq_ok {first : Except ε α} {made : α → β} {result : β} :
    (first >>= fun value => pure (made value)) = .ok result ↔
      ∃ value, first = .ok value ∧ made value = result := by
  cases first with
  | error =>
      constructor
      · intro found
        cases found
      · rintro ⟨_, found, _⟩
        cases found
  | ok value =>
      constructor
      · intro found
        cases found
        exact ⟨value, rfl, rfl⟩
      · rintro ⟨_, found, rfl⟩
        cases found
        rfl

/-- Two steps fail exactly when the first one does or the second one does with
the result of the first. -/
theorem bind_eq_error {first : Except ε α} {later : α → Except ε β}
    {error : ε} :
    (first >>= later) = .error error ↔
      first = .error error ∨
        ∃ value, first = .ok value ∧ later value = .error error := by
  constructor
  · intro refused
    cases first with
    | error reason =>
        cases refused
        exact .inl rfl
    | ok value => exact .inr ⟨value, rfl, refused⟩
  · rintro (rfl | ⟨value, rfl, refused⟩)
    · rfl
    · exact refused

/-- What every step of a successful fold preserves holds at its end. -/
theorem foldlM_induction {step : β → α → Except ε β} {holds : β → Prop}
    {items : List α} {start last : β}
    (followed : items.foldlM step start = .ok last) (initially : holds start)
    (preserved : ∀ item ∈ items, ∀ before after, holds before →
      step before item = .ok after → holds after) : holds last := by
  induction items generalizing start with
  | nil =>
      cases followed
      exact initially
  | cons item items induction =>
      rw [List.foldlM_cons] at followed
      obtain ⟨middle, first, later⟩ := bind_eq_ok.mp followed
      refine induction later ?_ fun other member =>
        preserved other (List.mem_cons_of_mem _ member)
      exact preserved item List.mem_cons_self start middle initially first

/-- A fold that fails does so at one of its steps, before which everything holds
that the steps preserve. -/
theorem foldlM_refused {step : β → α → Except ε β} {holds : β → Prop}
    {items : List α} {start : β} {error : ε}
    (refused : items.foldlM step start = .error error) (initially : holds start)
    (preserved : ∀ item ∈ items, ∀ before after, holds before →
      step before item = .ok after → holds after) :
    ∃ item ∈ items, ∃ before,
      holds before ∧ step before item = .error error := by
  induction items generalizing start with
  | nil => cases refused
  | cons item items induction =>
      rw [List.foldlM_cons] at refused
      rcases bind_eq_error.mp refused with here | ⟨middle, first, later⟩
      · exact ⟨item, List.mem_cons_self, start, initially, here⟩
      · have holdsMiddle :=
          preserved item List.mem_cons_self start middle initially first
        obtain ⟨other, member, before, holdsBefore, there⟩ :=
          induction later holdsMiddle fun other member =>
            preserved other (List.mem_cons_of_mem _ member)
        exact ⟨other, List.mem_cons_of_mem _ member, before, holdsBefore, there⟩

/-- A fold whose steps never fail in some way never does. -/
theorem foldlM_ne_error {step : β → α → Except ε β}
    {error : ε} (never : ∀ before item, step before item ≠ .error error)
    (items : List α) (start : β) :
    items.foldlM step start ≠ .error error := by
  intro refused
  let anything : β → Prop := fun _ => True
  obtain ⟨item, _, before, _, failed⟩ := @foldlM_refused _ _ _ _ anything _ _ _
    refused trivial fun _ _ _ _ _ _ => trivial
  exact never before item failed

/-- What a step brings about for its item and later steps preserve holds for all
items at the end of a successful fold. -/
theorem foldlM_reaches {step : β → α → Except ε β} {holds : α → β → Prop}
    {items : List α} {start last : β}
    (followed : items.foldlM step start = .ok last)
    (reached : ∀ item before after,
      step before item = .ok after → holds item after)
    (preserved : ∀ item other before after, holds item before →
      step before other = .ok after → holds item after) :
    ∀ item ∈ items, holds item last := by
  induction items generalizing start with
  | nil => exact List.forall_mem_nil _
  | cons first items induction =>
      rw [List.foldlM_cons] at followed
      obtain ⟨middle, step, later⟩ := bind_eq_ok.mp followed
      intro item member
      rcases List.mem_cons.mp member with rfl | behind
      · exact foldlM_induction later (reached _ _ _ step)
          fun other _ before after => preserved item other before after
      · exact induction later item behind

/-- A fold whose every step adds one to a measure adds the number of steps. -/
theorem foldlM_measure {step : β → α → Except ε β} {measure : β → Nat}
    {items : List α} {start last : β}
    (followed : items.foldlM step start = .ok last)
    (grows : ∀ item before after, step before item = .ok after →
      measure after = measure before + 1) :
    measure last = measure start + items.length := by
  induction items generalizing start with
  | nil =>
      cases followed
      rfl
  | cons item items induction =>
      rw [List.foldlM_cons] at followed
      obtain ⟨middle, first, later⟩ := bind_eq_ok.mp followed
      rw [induction later, grows item start middle first, List.length_cons]
      omega

/-- A fold follows another one whose steps its own steps follow. -/
theorem foldlM_follows {γ : Type} {step : β → α → Except ε β}
    {twin : γ → α → Option γ} {relates : γ → β → Prop}
    (each : ∀ item model later before, relates model before →
      twin model item = some later →
      ∃ after, step before item = .ok after ∧ relates later after)
    {items : List α} {model last : γ} {start : β}
    (related : relates model start)
    (found : items.foldlM twin model = some last) :
    ∃ after, items.foldlM step start = .ok after ∧ relates last after := by
  induction items generalizing model start with
  | nil =>
      cases found
      exact ⟨start, rfl, related⟩
  | cons item items induction =>
      rw [List.foldlM_cons] at found
      obtain ⟨later, first, rest⟩ := Option.bind_eq_some_iff.mp found
      obtain ⟨middle, stepped, relatedMiddle⟩ :=
        each item model later start related first
      obtain ⟨after, followed, relatedLast⟩ := induction relatedMiddle rest
      refine ⟨after, ?_, relatedLast⟩
      rw [List.foldlM_cons]
      exact bind_eq_ok.mpr ⟨middle, stepped, followed⟩

/-- A fold is followed by another one whose steps succeed wherever its own
do. -/
theorem foldlM_followed {γ : Type} {step : β → α → Except ε β}
    {twin : γ → α → Option γ} {relates : γ → β → Prop}
    (each : ∀ item model before after, relates model before →
      step before item = .ok after →
      ∃ later, twin model item = some later ∧ relates later after)
    {items : List α} {model : γ} {start last : β}
    (related : relates model start)
    (followed : items.foldlM step start = .ok last) :
    ∃ later, items.foldlM twin model = some later ∧ relates later last := by
  induction items generalizing model start with
  | nil =>
      cases followed
      exact ⟨model, rfl, related⟩
  | cons item items induction =>
      rw [List.foldlM_cons] at followed
      obtain ⟨middle, first, rest⟩ := bind_eq_ok.mp followed
      obtain ⟨later, stepped, relatedMiddle⟩ :=
        each item model start middle related first
      obtain ⟨after, found, relatedLast⟩ := induction relatedMiddle rest
      refine ⟨after, ?_, relatedLast⟩
      rw [List.foldlM_cons]
      exact Option.bind_eq_some_iff.mpr ⟨later, stepped, found⟩

/-- A list of computations succeeds exactly when each of them does. -/
theorem exists_mapM_iff {run : α → Except ε β} {items : List α} :
    (∃ results, items.mapM run = .ok results) ↔
      ∀ item ∈ items, ∃ result, run item = .ok result := by
  induction items with
  | nil => exact ⟨fun _ => List.forall_mem_nil _, fun _ => ⟨[], rfl⟩⟩
  | cons item items induction =>
      rw [List.mapM_cons, List.forall_mem_cons]
      constructor
      · rintro ⟨results, found⟩
        obtain ⟨first, ran, later⟩ := bind_eq_ok.mp found
        obtain ⟨rest, ranRest, _⟩ := bind_eq_ok.mp later
        exact ⟨⟨first, ran⟩, induction.mp ⟨rest, ranRest⟩⟩
      · rintro ⟨⟨first, ran⟩, others⟩
        obtain ⟨rest, ranRest⟩ := induction.mpr others
        exact ⟨first :: rest, bind_eq_ok.mpr
          ⟨first, ran, bind_eq_ok.mpr ⟨rest, ranRest, rfl⟩⟩⟩

/-- A list of computations that fails does so at one of them. -/
theorem mapM_refused {run : α → Except ε β} {items : List α} {error : ε}
    (refused : items.mapM run = .error error) :
    ∃ item ∈ items, run item = .error error := by
  induction items with
  | nil => cases refused
  | cons item items induction =>
      rw [List.mapM_cons] at refused
      rcases bind_eq_error.mp refused with here | ⟨first, _, later⟩
      · exact ⟨item, List.mem_cons_self, here⟩
      · rcases bind_eq_error.mp later with there | ⟨_, _, same⟩
        · obtain ⟨other, member, failed⟩ := induction there
          exact ⟨other, List.mem_cons_of_mem _ member, failed⟩
        · cases same

/-- A list of computations succeeds with one result for each of them. -/
theorem length_of_mapM {run : α → Except ε β} {items : List α}
    {results : List β} (found : items.mapM run = .ok results) :
    results.length = items.length := by
  induction items generalizing results with
  | nil =>
      cases found
      rfl
  | cons item items induction =>
      rw [List.mapM_cons] at found
      obtain ⟨first, _, later⟩ := bind_eq_ok.mp found
      obtain ⟨rest, restFound, same⟩ := bind_eq_ok.mp later
      cases same
      rw [List.length_cons, induction restFound, List.length_cons]

end Reparse
