/-
# Theory.Supply -- orders served in turn, each a number of times

A consumer places orders.  An order is filled from a supply that arrives later and
in order, or, when it is blank, by a fixed value.  Each filled order is delivered
several times in a row before the next one is touched.

`Window` is the state a server of such orders keeps: the orders not yet finished,
the stock that has arrived for them, and how often the first has been delivered.
Its rules are the four events: an order, a supply, a delivery that is not the last
of its order and one that is.  Whatever their interleaving, the deliveries made are
a prefix of what the orders call for (`Window.prefix_expected`), all of it when nothing is
outstanding (`Window.finished`).
-/
import Mathlib.Data.List.Basic

namespace SnitchCluster.Theory

/-- An order: blank or not, and how often it is delivered *again*. -/
structure Order where
  blank : Bool
  again : Nat
  deriving DecidableEq, Repr

namespace Supply

variable {α : Type} (zero : α)

/-- How much supply a list of orders takes. -/
def needs (orders : List Order) : Nat := orders.countP fun o => !o.blank

/-- The orders that can be filled, each with its value. -/
def serve : List Order → List α → List (α × Nat)
  | [], _ => []
  | o :: orders, supply =>
    if o.blank then (zero, o.again) :: serve orders supply
    else match supply with
      | [] => []
      | x :: supply => (x, o.again) :: serve orders supply

/-- The deliveries of filled orders. -/
def deliveries (filled : List (α × Nat)) : List α :=
  filled.flatMap fun f => List.replicate (f.2 + 1) f.1

/-- What a list of orders calls for, as far as the supply fills it. -/
def expected (orders : List Order) (supply : List α) : List α :=
  deliveries (serve zero orders supply)

@[simp] theorem needs_nil : needs [] = 0 := rfl

theorem needs_cons (o : Order) (orders : List Order) :
    needs (o :: orders) = needs orders + (!o.blank).toNat := by
  rw [needs, List.countP_cons]
  cases o.blank <;> rfl

theorem needs_append (xs ys : List Order) : needs (xs ++ ys) = needs xs + needs ys :=
  List.countP_append

theorem needs_le_length (orders : List Order) : needs orders ≤ orders.length :=
  List.countP_le_length

@[simp] theorem serve_nil (supply : List α) : serve zero [] supply = [] := rfl

theorem serve_blank {o : Order} (blank : o.blank = true) (orders : List Order)
    (supply : List α) :
    serve zero (o :: orders) supply = (zero, o.again) :: serve zero orders supply :=
  if_pos blank

theorem serve_filled {o : Order} (filled : o.blank = false) (orders : List Order) (x : α)
    (supply : List α) :
    serve zero (o :: orders) (x :: supply) = (x, o.again) :: serve zero orders supply :=
  if_neg (Bool.eq_false_iff.mp filled)

theorem serve_waits {o : Order} (filled : o.blank = false) (orders : List Order) :
    serve zero (o :: orders) [] = [] := if_neg (Bool.eq_false_iff.mp filled)

theorem deliveries_append (xs ys : List (α × Nat)) :
    deliveries (xs ++ ys) = deliveries xs ++ deliveries ys := List.flatMap_append

theorem deliveries_cons (x : α) (n : Nat) (rest : List (α × Nat)) :
    deliveries ((x, n) :: rest) = List.replicate (n + 1) x ++ deliveries rest := rfl

/-- Orders that take exactly a supply leave the rest alone. -/
theorem serve_append {xs : List Order} {supply : List α} (exact : supply.length = needs xs)
    (ys : List Order) (more : List α) :
    serve zero (xs ++ ys) (supply ++ more) = serve zero xs supply ++ serve zero ys more := by
  induction xs generalizing supply with
  | nil =>
    rw [needs_nil, List.length_eq_zero_iff] at exact
    rw [exact]
    rfl
  | cons o xs ih =>
    rw [needs_cons] at exact
    rw [List.cons_append]
    cases blank : o.blank with
    | true =>
      rw [blank] at exact
      rw [serve_blank zero blank, serve_blank zero blank, ih exact, List.cons_append]
    | false =>
      rw [blank] at exact
      cases supply with
      | nil => exact absurd exact (Nat.succ_ne_zero _).symm
      | cons x supply =>
        rw [List.cons_append, serve_filled zero blank, serve_filled zero blank,
          ih (Nat.succ.inj exact), List.cons_append]

/-- Filled orders stay filled. -/
theorem serve_grows (xs ys : List Order) (supply more : List α) :
    serve zero xs supply <+: serve zero (xs ++ ys) (supply ++ more) := by
  induction xs generalizing supply with
  | nil => exact List.nil_prefix
  | cons o xs ih =>
    rw [List.cons_append]
    cases blank : o.blank with
    | true =>
      rw [serve_blank zero blank, serve_blank zero blank]
      exact (List.prefix_cons_inj _).mpr (ih supply)
    | false =>
      cases supply with
      | nil =>
        rw [serve_waits zero blank]
        exact List.nil_prefix
      | cons x supply =>
        rw [List.cons_append, serve_filled zero blank, serve_filled zero blank]
        exact (List.prefix_cons_inj _).mpr (ih supply)

theorem deliveries_prefix {xs ys : List (α × Nat)} (front : xs <+: ys) :
    deliveries xs <+: deliveries ys := by
  obtain ⟨rest, rfl⟩ := front
  rw [deliveries_append]
  exact List.prefix_append _ _

theorem length_deliveries {xs : List Order} {supply : List α} (exact : supply.length = needs xs)
    {r : Nat} (uniform : ∀ o ∈ xs, o.again = r) :
    (deliveries (serve zero xs supply)).length = xs.length * (r + 1) := by
  induction xs generalizing supply with
  | nil => rw [serve_nil, List.length_nil, Nat.zero_mul]; rfl
  | cons o xs ih =>
    rw [List.forall_mem_cons] at uniform
    rw [needs_cons] at exact
    rw [List.length_cons, Nat.succ_mul]
    cases blank : o.blank with
    | true =>
      rw [blank] at exact
      rw [serve_blank zero blank, deliveries_cons, List.length_append, List.length_replicate,
        ih exact uniform.2, uniform.1, Nat.add_comm]
    | false =>
      rw [blank] at exact
      cases supply with
      | nil => exact absurd exact (Nat.succ_ne_zero _).symm
      | cons x supply =>
        rw [serve_filled zero blank, deliveries_cons, List.length_append,
          List.length_replicate, ih (Nat.succ.inj exact) uniform.2, uniform.1, Nat.add_comm]

/-- The first filled order is the first order. -/
theorem again_of_serve {o : Order} {orders : List Order} {supply : List α} {x : α} {n : Nat}
    {rest : List (α × Nat)} (served : serve zero (o :: orders) supply = (x, n) :: rest) :
    n = o.again := by
  cases blank : o.blank with
  | true =>
    rw [serve_blank zero blank] at served
    exact (Prod.mk.inj (List.cons.inj served).1).2.symm
  | false =>
    cases supply with
    | nil =>
      rw [serve_waits zero blank] at served
      exact absurd served.symm (List.cons_ne_nil _ _)
    | cons y supply =>
      rw [serve_filled zero blank] at served
      exact (Prod.mk.inj (List.cons.inj served).1).2.symm

/-! ## The window of a server -/

/-- The unfinished orders, the stock for them, and how often the first has been
delivered, against all orders, supplies and deliveries so far. -/
structure Window (orders : List Order) (supply delivered : List α) (out : List Order)
    (stock : List α) (count : Nat) : Prop where
  past : ∃ done gone, orders = done ++ out ∧ supply = gone ++ stock ∧
    gone.length = needs done ∧ delivered =
      deliveries (serve zero done gone) ++ (deliveries (serve zero out stock)).take count
  partway : count = 0 ∨ ∃ x n rest, serve zero out stock = (x, n) :: rest ∧ count ≤ n

namespace Window

variable {zero} {orders : List Order} {supply delivered : List α} {out : List Order}
  {stock : List α} {count : Nat}

theorem start : Window zero [] [] ([] : List α) [] [] 0 :=
  ⟨⟨[], [], rfl, rfl, rfl, rfl⟩, Or.inl rfl⟩

/-- The deliveries begun are available. -/
theorem count_le (window : Window zero orders supply delivered out stock count) :
    count ≤ (deliveries (serve zero out stock)).length := by
  rcases window.partway with none | ⟨x, n, rest, served, below⟩
  · rw [none]
    exact Nat.zero_le _
  · rw [served, deliveries_cons, List.length_append, List.length_replicate]
    omega

/-- A new order and new supply change nothing that has been delivered. -/
theorem grow (window : Window zero orders supply delivered out stock count)
    (ys : List Order) (more : List α) :
    Window zero (orders ++ ys) (supply ++ more) delivered (out ++ ys) (stock ++ more) count := by
  obtain ⟨done, gone, split, taken, exact, made⟩ := window.past
  have longer := serve_grows zero out ys stock more
  refine ⟨⟨done, gone, ?_, ?_, exact, ?_⟩, ?_⟩
  · rw [split, List.append_assoc]
  · rw [taken, List.append_assoc]
  · obtain ⟨rest, extended⟩ := deliveries_prefix longer
    rw [made, ← extended, List.take_append_of_le_length window.count_le]
  · rcases window.partway with none | ⟨x, n, rest, served, below⟩
    · exact Or.inl none
    · obtain ⟨tail, extended⟩ := longer
      rw [served, List.cons_append] at extended
      exact Or.inr ⟨x, n, rest ++ tail, extended.symm, below⟩

/-- What has been delivered of the first order. -/
theorem take_eq {x : α} {n : Nat} {rest : List (α × Nat)}
    (served : serve zero out stock = (x, n) :: rest) {k : Nat} (upto : k ≤ n + 1) :
    (deliveries (serve zero out stock)).take k = List.replicate k x := by
  rw [served, deliveries_cons, List.take_append_of_le_length (by rwa [List.length_replicate]),
    List.take_replicate, Nat.min_eq_left upto]

/-- A delivery that is not the last of its order. -/
theorem again (window : Window zero orders supply delivered out stock count) {x : α} {n : Nat}
    {rest : List (α × Nat)} (served : serve zero out stock = (x, n) :: rest)
    (more : count < n) :
    Window zero orders supply (delivered ++ [x]) out stock (count + 1) := by
  obtain ⟨done, gone, split, taken, exact, made⟩ := window.past
  refine ⟨⟨done, gone, split, taken, exact, ?_⟩, Or.inr ⟨x, n, rest, served, more⟩⟩
  rw [made, take_eq served (by omega), take_eq served (by omega), List.append_assoc,
    List.replicate_succ']

/-- The last delivery of an order. -/
theorem last (window : Window zero orders supply delivered out stock count) {x : α} {n : Nat}
    {rest : List (α × Nat)} (served : serve zero out stock = (x, n) :: rest)
    (final : count = n) {o : Order} {others : List Order} (first : out = o :: others) :
    Window zero orders supply (delivered ++ [x]) others
      (if o.blank then stock else stock.tail) 0 := by
  obtain ⟨done, gone, split, taken, exact, made⟩ := window.past
  have begun : delivered = deliveries (serve zero done gone) ++ List.replicate n x := by
    rw [made, take_eq served (by omega), final]
  cases blank : o.blank with
  | true =>
    rw [first, serve_blank zero blank] at served
    obtain ⟨value, -⟩ := List.cons.inj served
    obtain ⟨rfl, rfl⟩ := Prod.mk.inj value
    refine ⟨⟨done ++ [o], gone, ?_, taken, ?_, ?_⟩, Or.inl rfl⟩
    · rw [split, first, List.append_assoc]
      rfl
    · rw [exact, needs_append, needs_cons, blank]
      rfl
    · have whole := serve_append zero exact [o] []
      rw [List.append_nil, serve_blank zero blank] at whole
      rw [whole, deliveries_append, begun, List.append_assoc, ← List.replicate_succ',
        deliveries_cons]
      simp [deliveries]
  | false =>
    cases stock with
    | nil =>
      rw [first, serve_waits zero blank] at served
      exact absurd served.symm (List.cons_ne_nil _ _)
    | cons y stock =>
      rw [first, serve_filled zero blank] at served
      obtain ⟨value, -⟩ := List.cons.inj served
      obtain ⟨rfl, rfl⟩ := Prod.mk.inj value
      refine ⟨⟨done ++ [o], gone ++ [y], ?_, ?_, ?_, ?_⟩, Or.inl rfl⟩
      · rw [split, first, List.append_assoc]
        rfl
      · rw [taken, List.append_assoc]
        rfl
      · rw [List.length_append, exact, needs_append, needs_cons, blank]
        rfl
      · rw [serve_append zero exact [o] [y], serve_filled zero blank, deliveries_append, begun,
          List.append_assoc, ← List.replicate_succ', deliveries_cons]
        simp [deliveries]

/-! ### What a window says -/

theorem expected_eq (window : Window zero orders supply delivered out stock count) :
    ∃ before, expected zero orders supply = before ++ deliveries (serve zero out stock) ∧
      delivered = before ++ (deliveries (serve zero out stock)).take count := by
  obtain ⟨done, gone, split, taken, exact, made⟩ := window.past
  refine ⟨deliveries (serve zero done gone), ?_, made⟩
  rw [expected, split, taken, serve_append zero exact, deliveries_append]

/-- The supply is what finished orders took and the stock. -/
theorem balance (window : Window zero orders supply delivered out stock count) :
    supply.length + needs out = needs orders + stock.length := by
  obtain ⟨done, gone, split, taken, exact, _⟩ := window.past
  rw [split, taken, List.length_append, needs_append, exact]
  omega

/-- **The deliveries are a prefix of what the orders call for.** -/
theorem prefix_expected (window : Window zero orders supply delivered out stock count) :
    delivered <+: expected zero orders supply := by
  obtain ⟨before, all, made⟩ := window.expected_eq
  rw [all, made]
  exact (List.prefix_append_right_inj _).mpr (List.take_prefix _ _)

/-- With nothing outstanding, all has been delivered. -/
theorem finished (window : Window zero orders supply delivered [] stock count) :
    delivered = expected zero orders supply := by
  obtain ⟨before, all, made⟩ := window.expected_eq
  rw [all, made, serve_nil]
  exact congrArg (before ++ ·) List.take_nil

/-- More is called for exactly when the first order is filled. -/
theorem short_iff (window : Window zero orders supply delivered out stock count) :
    delivered.length < (expected zero orders supply).length ↔ serve zero out stock ≠ [] := by
  obtain ⟨before, all, made⟩ := window.expected_eq
  rw [all, made, List.length_append, List.length_append, List.length_take]
  rcases served : serve zero out stock with _ | ⟨⟨x, n⟩, rest⟩
  · exact iff_of_false (fun less => by simp [deliveries] at less) (fun some => some rfl)
  · refine iff_of_true ?_ (List.cons_ne_nil _ _)
    have begun : count ≤ n := by
      rcases window.partway with none | ⟨y, m, tail, same, below⟩
      · omega
      · rw [served] at same
        obtain ⟨value, -⟩ := List.cons.inj same
        obtain ⟨-, rfl⟩ := Prod.mk.inj value
        exact below
    rw [deliveries_cons, List.length_append, List.length_replicate]
    omega

/-- With one number of deliveries for all orders, the deliveries count them. -/
theorem completed (window : Window zero orders supply delivered out stock count) {r : Nat}
    (uniform : ∀ o ∈ orders, o.again = r) :
    orders.length = out.length + delivered.length / (r + 1) := by
  obtain ⟨done, gone, split, taken, exact, made⟩ := window.past
  rw [split, List.forall_mem_append] at uniform
  have begun : ((deliveries (serve zero out stock)).take count).length < r + 1 := by
    refine Nat.lt_of_le_of_lt (List.length_take_le _ _) ?_
    rcases window.partway with none | ⟨x, n, rest, served, below⟩
    · omega
    · cases out with
      | nil => exact absurd served.symm (List.cons_ne_nil _ _)
      | cons o others =>
        have same := again_of_serve zero served
        rw [uniform.2 o List.mem_cons_self] at same
        omega
  rw [split, made, List.length_append, List.length_append, length_deliveries zero exact uniform.1,
    Nat.mul_comm, Nat.mul_add_div (Nat.succ_pos r), Nat.div_eq_of_lt begun, Nat.add_zero,
    Nat.add_comm]

end Window

end Supply

/-! ## Requests answered in order -/

namespace Supply

variable {ρ α : Type}

/-- The requests still to be answered. -/
def unanswered (requests : List ρ) (answers : List α) : List ρ := requests.drop answers.length

theorem unanswered_ask {requests : List ρ} {answers : List α}
    (behind : answers.length ≤ requests.length) (more : List ρ) :
    unanswered (requests ++ more) answers = unanswered requests answers ++ more :=
  List.drop_append_of_le_length behind

theorem zip_ask {requests : List ρ} {answers : List α}
    (behind : answers.length ≤ requests.length) (more : List ρ) :
    (requests ++ more).zip answers = requests.zip answers := by
  induction answers generalizing requests with
  | nil => rw [List.zip_nil_right, List.zip_nil_right]
  | cons a answers ih =>
    cases requests with
    | nil => exact absurd behind (Nat.not_succ_le_zero _)
    | cons r requests =>
      rw [List.cons_append, List.zip_cons_cons, List.zip_cons_cons,
        ih (Nat.le_of_succ_le_succ behind)]

theorem length_unanswered {requests : List ρ} {answers : List α}
    (behind : answers.length ≤ requests.length) :
    (unanswered requests answers).length + answers.length = requests.length := by
  rw [unanswered, List.length_drop]
  omega

/-- The requests are the answered ones and the others. -/
theorem zip_unanswered {requests : List ρ} {answers : List α}
    (behind : answers.length ≤ requests.length) :
    (requests.zip answers).map Prod.fst ++ unanswered requests answers = requests := by
  rw [unanswered]
  induction answers generalizing requests with
  | nil => simp
  | cons a answers ih =>
    cases requests with
    | nil => exact absurd behind (Nat.not_succ_le_zero _)
    | cons r requests => simpa using ih (Nat.le_of_succ_le_succ behind)

/-- An answer is that of the oldest request. -/
theorem zip_answer {requests : List ρ} {answers : List α} {r : ρ} {rest : List ρ}
    (oldest : unanswered requests answers = r :: rest) (a : α) :
    requests.zip (answers ++ [a]) = requests.zip answers ++ [(r, a)] := by
  have split : requests.take answers.length ++ r :: rest = requests := by
    rw [← oldest]
    exact List.take_append_drop _ _
  have some : 0 < (unanswered requests answers).length := by
    rw [oldest]
    exact Nat.succ_pos _
  rw [unanswered, List.length_drop] at some
  have size : (requests.take answers.length).length = answers.length := by
    rw [List.length_take]
    omega
  rw [← split, List.zip_append size, zip_ask (Nat.le_of_eq size.symm), List.zip_cons_cons,
    List.zip_nil_right]

theorem unanswered_answer {requests : List ρ} {answers : List α} {r : ρ} {rest : List ρ}
    (oldest : unanswered requests answers = r :: rest) (a : α) :
    unanswered requests (answers ++ [a]) = rest := by
  rw [unanswered, List.length_append, List.length_singleton, ← List.drop_drop]
  exact (congrArg (List.drop 1) oldest).trans rfl

end Supply

end SnitchCluster.Theory
