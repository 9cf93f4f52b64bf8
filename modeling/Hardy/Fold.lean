import Mathlib.Data.List.Perm.Basic

/-!
# Fallible folds

Loops over a list that stop at the first failure.  When the order of the list
is not fixed, a run that succeeds should succeed in every order and with the
same result; `foldlM_perm` reduces that to two neighbouring steps.
-/

namespace Hardy.Fold

variable {ε ε' σ α β : Type}

theorem ok_of_toOption {ε α : Type} {x : Except ε α} {a : α} (h : x.toOption = some a) :
    x = .ok a := by
  cases x with
  | error e => cases h
  | ok b =>
    cases h
    rfl

theorem bind_ok {x : Except ε α} {f : α → Except ε β} {b : β} :
    (x >>= f) = .ok b ↔ ∃ a, x = .ok a ∧ f a = .ok b := by
  cases x with
  | error y => exact ⟨nofun, fun ⟨_, h, _⟩ => (by cases h)⟩
  | ok a => exact ⟨fun h => ⟨a, rfl, h⟩, fun ⟨a', h, h'⟩ => (by cases h; exact h')⟩

theorem bind_error {x : Except ε α} {f : α → Except ε β} {y : ε} :
    (x >>= f) = .error y ↔ x = .error y ∨ ∃ a, x = .ok a ∧ f a = .error y := by
  cases x with
  | error z =>
    refine ⟨fun h => .inl (by cases h; rfl), ?_⟩
    rintro (h | ⟨_, h, _⟩)
    · cases h
      rfl
    · cases h
  | ok a =>
    refine ⟨fun h => .inr ⟨a, rfl, h⟩, ?_⟩
    rintro (h | ⟨_, h, h'⟩)
    · cases h
    · cases h
      exact h'

theorem mapError_bind {k : ε → ε'} {x x' : Except ε α} {f f' : α → Except ε β}
    (hx : x.mapError k = x'.mapError k)
    (hf : ∀ a, x = .ok a → (f a).mapError k = (f' a).mapError k) :
    (x >>= f).mapError k = (x' >>= f').mapError k := by
  cases x with
  | error y =>
    cases x' with
    | error y' => exact congrArg Except.error (Except.error.inj hx)
    | ok a => cases hx
  | ok a =>
    cases x' with
    | error y' => cases hx
    | ok a' =>
      cases Except.ok.inj hx
      exact hf a rfl

theorem mapError_ok {f : ε → ε'} {r : Except ε α} {a : α} :
    r.mapError f = .ok a ↔ r = .ok a := by
  cases r with
  | error x => exact ⟨nofun, nofun⟩
  | ok b => exact ⟨fun h => (by cases h; rfl), fun h => (by cases h; rfl)⟩

theorem map_ok {f : α → β} {r : Except ε α} {b : β} :
    r.map f = .ok b ↔ ∃ a, r = .ok a ∧ f a = b := by
  cases r with
  | error x => exact ⟨nofun, fun ⟨_, h, _⟩ => (by cases h)⟩
  | ok a => exact ⟨fun h => ⟨a, rfl, Except.ok.inj h⟩, fun ⟨_, h, h'⟩ => (by cases h; rw [← h']; rfl)⟩

variable {l : List α}

theorem forM_ok {f : α → Except ε Unit} : l.forM f = .ok () ↔ ∀ a ∈ l, f a = .ok () := by
  induction l with
  | nil => exact ⟨nofun, fun _ => rfl⟩
  | cons a l ih =>
    rw [show (a :: l).forM f = (f a >>= fun _ => l.forM f) from rfl, bind_ok]
    constructor
    · rintro ⟨⟨⟩, ha, hl⟩
      exact List.forall_mem_cons.mpr ⟨ha, ih.mp hl⟩
    · intro h
      obtain ⟨ha, hl⟩ := List.forall_mem_cons.mp h
      exact ⟨(), ha, ih.mpr hl⟩

section

variable {step step' : σ → α → Except ε σ}

variable {s s' : σ}

theorem foldlM_cons_ok {a : α} :
    (a :: l).foldlM step s = .ok s' ↔ ∃ s₁, step s a = .ok s₁ ∧ l.foldlM step s₁ = .ok s' := by
  rw [List.foldlM_cons, bind_ok]

theorem foldlM_invariant {P : σ → Prop}
    (hP : ∀ {s a s'}, a ∈ l → P s → step s a = .ok s' → P s') (h₀ : P s)
    (h : l.foldlM step s = .ok s') : P s' := by
  induction l generalizing s with
  | nil =>
    cases h
    exact h₀
  | cons a l ih =>
    obtain ⟨s₁, ha, hl⟩ := foldlM_cons_ok.mp h
    exact ih (fun hm => hP (List.mem_cons_of_mem _ hm)) (hP List.mem_cons_self h₀ ha) hl

theorem foldlM_error {P : σ → Prop} {Q : ε → Prop}
    (hP : ∀ {s a s'}, a ∈ l → P s → step s a = .ok s' → P s')
    (hQ : ∀ {s a x}, a ∈ l → P s → step s a = .error x → Q x) {s : σ} {x : ε} (h₀ : P s)
    (h : l.foldlM step s = .error x) : Q x := by
  induction l generalizing s with
  | nil => cases h
  | cons a l ih =>
    rw [List.foldlM_cons] at h
    cases ha : step s a with
    | error y =>
      rw [ha] at h
      cases h
      exact hQ List.mem_cons_self h₀ ha
    | ok s₁ =>
      rw [ha] at h
      exact ih (fun hm => hP (List.mem_cons_of_mem _ hm))
        (fun hm => hQ (List.mem_cons_of_mem _ hm)) (hP List.mem_cons_self h₀ ha) h

theorem foldlM_history {P : List α → σ → Prop}
    (hP : ∀ {hist s a s'}, a ∈ l → P hist s → step s a = .ok s' → P (hist ++ [a]) s')
    {hist : List α} (h₀ : P hist s) (h : l.foldlM step s = .ok s') : P (hist ++ l) s' := by
  induction l generalizing hist s with
  | nil =>
    cases h
    rw [List.append_nil]
    exact h₀
  | cons a l ih =>
    obtain ⟨s₁, ha, hl⟩ := foldlM_cons_ok.mp h
    have := ih (fun hm => hP (List.mem_cons_of_mem _ hm)) (hP List.mem_cons_self h₀ ha) hl
    rwa [List.append_assoc, List.singleton_append] at this

theorem foldlM_steps {P : σ → Prop}
    (hP : ∀ {s a s'}, a ∈ l → P s → step s a = .ok s' → P s') (h₀ : P s)
    (h : l.foldlM step s = .ok s') : ∀ a ∈ l, ∃ s₁ s₂, P s₁ ∧ step s₁ a = .ok s₂ := by
  induction l generalizing s with
  | nil => exact nofun
  | cons b l ih =>
    obtain ⟨s₁, hb, hl⟩ := foldlM_cons_ok.mp h
    intro a ha
    rcases List.mem_cons.mp ha with rfl | ha
    · exact ⟨s, s₁, h₀, hb⟩
    · exact ih (fun hm => hP (List.mem_cons_of_mem _ hm)) (hP List.mem_cons_self h₀ hb) hl a ha

theorem foldlM_congr {P : σ → Prop} (hP : ∀ {s a s'}, a ∈ l → P s → step s a = .ok s' → P s')
    (he : ∀ {s a}, a ∈ l → P s → step s a = step' s a) {s : σ} (h₀ : P s) :
    l.foldlM step s = l.foldlM step' s := by
  induction l generalizing s with
  | nil => rfl
  | cons a l ih =>
    rw [List.foldlM_cons, List.foldlM_cons, ← he List.mem_cons_self h₀]
    cases ha : step s a with
    | error x => rfl
    | ok s₁ =>
      exact ih (fun hm => hP (List.mem_cons_of_mem _ hm))
        (fun hm => he (List.mem_cons_of_mem _ hm)) (hP List.mem_cons_self h₀ ha)

theorem foldlM_mono (hstep : ∀ {s a s'}, step s a = .ok s' → step' s a = .ok s')
    (h : l.foldlM step s = .ok s') : l.foldlM step' s = .ok s' := by
  induction l generalizing s with
  | nil => exact h
  | cons a l ih =>
    obtain ⟨s₁, ha, hl⟩ := foldlM_cons_ok.mp h
    exact foldlM_cons_ok.mpr ⟨s₁, hstep ha, ih hl⟩

theorem foldlM_perm {R : α → α → Prop} (hsymm : ∀ {a b}, R a b → R b a)
    (hswap : ∀ {s a b s₁ s₂}, R a b → step s a = .ok s₁ → step s₁ b = .ok s₂ →
      ∃ s₁', step s b = .ok s₁' ∧ step s₁' a = .ok s₂)
    {l l' : List α} (hp : l.Perm l') (hR : l.Pairwise R)
    (h : l.foldlM step s = .ok s') : l'.foldlM step s = .ok s' := by
  induction hp generalizing s with
  | nil => exact h
  | cons a _ ih =>
    obtain ⟨s₁, ha, hl⟩ := foldlM_cons_ok.mp h
    exact foldlM_cons_ok.mpr ⟨s₁, ha, ih (List.pairwise_cons.mp hR).2 hl⟩
  | swap a b l =>
    obtain ⟨s₁, hb, hl⟩ := foldlM_cons_ok.mp h
    obtain ⟨s₂, ha, hl⟩ := foldlM_cons_ok.mp hl
    have hab : R b a := (List.pairwise_cons.mp hR).1 a List.mem_cons_self
    obtain ⟨s₁', ha', hb'⟩ := hswap hab hb ha
    exact foldlM_cons_ok.mpr ⟨s₁', ha', foldlM_cons_ok.mpr ⟨s₂, hb', hl⟩⟩
  | trans h₁ _ ih₁ ih₂ => exact ih₂ (h₁.pairwise hR hsymm) (ih₁ hR h)

theorem swap_of_updates {update : α → Except ε (σ → σ)}
    (heq : ∀ s a, step s a = (update a).map fun u => u s) {a b : α}
    (hcomm : ∀ u v, update a = .ok u → update b = .ok v → ∀ s, v (u s) = u (v s)) {s s₁ s₂ : σ}
    (ha : step s a = .ok s₁) (hb : step s₁ b = .ok s₂) :
    ∃ s₁', step s b = .ok s₁' ∧ step s₁' a = .ok s₂ := by
  rw [heq] at ha hb
  obtain ⟨u, hu, rfl⟩ := map_ok.mp ha
  obtain ⟨v, hv, rfl⟩ := map_ok.mp hb
  refine ⟨v s, ?_, ?_⟩
  · rw [heq]
    exact map_ok.mpr ⟨v, hv, rfl⟩
  · rw [heq]
    exact map_ok.mpr ⟨u, hu, (hcomm u v hu hv s).symm⟩

end

theorem foldlM_or {f : α → Except ε Bool} {acc d : Bool} :
    l.foldlM (fun acc e => do
        let b ← f e
        pure (acc || b)) acc = .ok d ↔
      (∀ e ∈ l, ∃ b, f e = .ok b) ∧ (d = true ↔ acc = true ∨ ∃ e ∈ l, f e = .ok true) := by
  induction l generalizing acc with
  | nil => cases acc <;> cases d <;> simp [pure, Except.pure]
  | cons e l ih =>
    rw [foldlM_cons_ok]
    constructor
    · rintro ⟨acc', ha, hl⟩
      obtain ⟨b, hb, ha⟩ := bind_ok.mp ha
      cases ha
      obtain ⟨hall, hd⟩ := ih.mp hl
      refine ⟨List.forall_mem_cons.mpr ⟨⟨b, hb⟩, hall⟩, ?_⟩
      rw [hd, Bool.or_eq_true, or_assoc]
      simp [hb]
    · rintro ⟨hall, hd⟩
      obtain ⟨⟨b, hb⟩, hall⟩ := List.forall_mem_cons.mp hall
      refine ⟨acc || b, by rw [hb]; rfl, ih.mpr ⟨hall, ?_⟩⟩
      rw [hd, Bool.or_eq_true, or_assoc]
      simp [hb]

theorem foldlM_collect {f : Nat × β → Except ε Bool} {l : List (Nat × β)}
    {acc d : List Nat}
    (h : l.foldlM (fun acc e => do
        let b ← f e
        pure (if b then acc ++ [e.1] else acc)) acc = .ok d) :
    (∀ e ∈ l, ∃ b, f e = .ok b) ∧ ∀ n, n ∈ d ↔ n ∈ acc ∨ ∃ e ∈ l, f e = .ok true ∧ e.1 = n := by
  induction l generalizing acc with
  | nil =>
    cases h
    simp
  | cons e l ih =>
    obtain ⟨acc', ha, hl⟩ := foldlM_cons_ok.mp h
    obtain ⟨b, hb, ha⟩ := bind_ok.mp ha
    cases ha
    obtain ⟨hall, hd⟩ := ih hl
    refine ⟨List.forall_mem_cons.mpr ⟨⟨b, hb⟩, hall⟩, fun n => ?_⟩
    rw [hd]
    cases b <;> simp [hb, or_assoc, eq_comm]

theorem foldlM_collect_exists {f : Nat × β → Except ε Bool} {l : List (Nat × β)}
    (h : ∀ e ∈ l, ∃ b, f e = .ok b) (acc : List Nat) :
    ∃ d, l.foldlM (fun acc e => do
        let b ← f e
        pure (if b then acc ++ [e.1] else acc)) acc = .ok d := by
  induction l generalizing acc with
  | nil => exact ⟨acc, rfl⟩
  | cons e l ih =>
    obtain ⟨⟨b, hb⟩, hall⟩ := List.forall_mem_cons.mp h
    obtain ⟨d, hd⟩ := ih hall (if b then acc ++ [e.1] else acc)
    exact ⟨d, foldlM_cons_ok.mpr ⟨_, by rw [hb]; rfl, hd⟩⟩

end Hardy.Fold
