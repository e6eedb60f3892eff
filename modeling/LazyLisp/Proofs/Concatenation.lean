import LazyLisp.Proofs.Following
import LazyLisp.Proofs.Walking

/-!
Concatenations are lazy. Taking elements looks at the parts in order, and at none of those behind
the part that has the last element: they may be endless or fail, and nothing of that shows.
-/

namespace LazyLisp
set_option autoImplicit false

namespace Seq

/-- The parts of a concatenation from the current one on, as one sequence. -/
def ofParts : List Seq → Seq
  | [] => .empty
  | current :: parts => .concat current parts

/-- One step of a walk that asks whether anything is left before it asks for head and tail. -/
def unconsUnlessEmpty (e : Engine) (s : Seq) : Eval (Option (Value × Seq)) := do
  if ← s.isEmpty e then return none else s.uncons e

/-- The first elements that steps of a walk find, and what is left behind them. -/
def takeBy (look : Seq → Eval (Option (Value × Seq))) : Nat → Seq → Eval (List Value × Seq)
  | 0, s => return ([], s)
  | k + 1, s => do
    match ← look s with
    | none => return ([], s)
    | some (x, t) =>
      let (xs, left) ← takeBy look k t
      return (x :: xs, left)

/-- Looking at parts in order until one has an element; it and all parts behind it are left. -/
inductive Settles : World → List Seq → Value → World → List Seq → Prop
  | here {w v : World} {s t : Seq} {x : Value} (parts : List Seq)
      (h : Takes w s (some (x, t)) v) : Settles w (s :: parts) x v (t :: parts)
  | skip {w v u : World} {s : Seq} {parts left : List Seq} {x : Value}
      (h : Takes w s none v) (hparts : Settles v parts x u left) : Settles w (s :: parts) x u left

namespace Settles
variable {w v u : World} {parts left : List Seq} {x : Value}

theorem later (h : Settles w parts x v left) : Later w v := by
  induction h with
  | here _ h => exact h.later
  | skip h _ ih => exact h.later.trans ih

theorem again (h : Settles w parts x v left) (hvu : Later v u) : Settles u parts x u left := by
  induction h with
  | here parts h => exact .here parts (h.again hvu)
  | skip h hparts ih => exact .skip (h.again (hparts.later.trans hvu)) (ih hvu)

/-- The head of a concatenation is that of the first part that has one, whatever is behind. -/
theorem unconsWithin (h : Settles w parts x v left) :
    ∃ n, ∀ m k, n ≤ m → n ≤ k → ∀ back,
      (ofParts (parts ++ back)).unconsWithin (.ofBudget m) k w =
        .ok (some (x, ofParts (left ++ back))) v := by
  induction h with
  | here parts h =>
    obtain ⟨n, hn⟩ := h.unconsWithin
    refine ⟨n + 1, fun m k hm hk back => ?_⟩
    obtain ⟨k, rfl⟩ := Nat.exists_eq_add_of_le' (Nat.le_trans (Nat.succ_pos _) hk)
    exact unconsWithin_concat_some (hn m k (by omega) (by omega))
  | @skip w v u s parts left x h hparts ih =>
    obtain ⟨n, hn⟩ := h.unconsWithin
    obtain ⟨l, hl⟩ := ih
    refine ⟨max n l + 1, fun m k hm hk back => ?_⟩
    obtain ⟨k, rfl⟩ := Nat.exists_eq_add_of_le' (Nat.le_trans (Nat.succ_pos _) hk)
    have hused := hn m k (by omega) (by omega)
    have hmore := hl m k (by omega) (by omega) back
    cases parts with
    | nil => cases hparts
    | cons next rest => exact (unconsWithin_concat_next hused).trans hmore

theorem uncons (h : Settles w parts x v left) :
    ∃ n, ∀ m, n ≤ m → ∀ back, (ofParts (parts ++ back)).uncons (.ofBudget m) w =
      .ok (some (x, ofParts (left ++ back))) v := by
  obtain ⟨n, hn⟩ := h.unconsWithin
  refine ⟨n, fun m hm back => ?_⟩
  rw [uncons_eq (Engine.ofBudget_keepsCells m)]
  exact hn m m hm hm back

/-- The looks for head and tail find again what the test for emptiness has found. -/
theorem unconsUnlessEmpty (h : Settles w parts x v left) :
    ∃ n, ∀ m, n ≤ m → ∀ back, (ofParts (parts ++ back)).unconsUnlessEmpty (.ofBudget m) w =
      .ok (some (x, ofParts (left ++ back))) v := by
  obtain ⟨n, hn⟩ := h.unconsWithin
  obtain ⟨l, hl⟩ := (h.again (.refl v)).uncons
  refine ⟨max n l, fun m hm back => ?_⟩
  have hlook := hn m m (by omega) (by omega) back
  exact (run_bind_ok (isEmptyWithin_of_ok hlook) _).trans (hl m (by omega) back)

end Settles

/-- Walking parts one after another, without an error, up to some element; the parts from there on
are left. -/
inductive Reads : World → List Seq → List Value → World → List Seq → Prop
  | nil (w : World) (parts : List Seq) : Reads w parts [] w parts
  | cons {w v u : World} {parts next left : List Seq} {x : Value} {xs : List Value}
      (h : Settles w parts x v next) (hnext : Reads v next xs u left) :
      Reads w parts (x :: xs) u left

/-- The first elements of a sequence; the walk may be left off anywhere. -/
inductive Begins : World → Seq → List Value → World → Prop
  | nil (w : World) (s : Seq) : Begins w s [] w
  | cons {w v u : World} {s t : Seq} {x : Value} {xs : List Value}
      (h : Takes w s (some (x, t)) v) (ht : Begins v t xs u) : Begins w s (x :: xs) u

/-- The list that a sequence stands for: a walk to its end, without an error. -/
inductive Walks : World → Seq → List Value → World → Prop
  | nil {w v : World} {s : Seq} (h : Takes w s none v) : Walks w s [] v
  | cons {w v u : World} {s t : Seq} {x : Value} {xs : List Value}
      (h : Takes w s (some (x, t)) v) (ht : Walks v t xs u) : Walks w s (x :: xs) u

/-- The lists that parts stand for, each in the state that the parts before it leave. Of the last
part a beginning is enough: it may be endless. -/
inductive WalksAll : World → List Seq → List (List Value) → World → Prop
  | nil (w : World) : WalksAll w [] [] w
  | last {w v : World} {s : Seq} {xs : List Value} (h : Begins w s xs v) : WalksAll w [s] [xs] v
  | cons {w v u : World} {s : Seq} {xs : List Value} {parts : List Seq} {xss : List (List Value)}
      (h : Walks w s xs v) (hparts : WalksAll v parts xss u) :
      WalksAll w (s :: parts) (xs :: xss) u

theorem Begins.later {w u : World} {s : Seq} {xs : List Value} (h : Begins w s xs u) :
    Later w u := by
  induction h with
  | nil => exact .refl _
  | cons h _ ih => exact h.later.trans ih

/-- A walk to the end comes by its last element. -/
theorem Walks.begins {w u : World} {s : Seq} {xs : List Value} (h : Walks w s xs u) :
    ∃ v, Begins w s xs v ∧ Later v u := by
  induction h with
  | @nil w _ s h => exact ⟨w, .nil w s, h.later⟩
  | cons h ht ih =>
    obtain ⟨v, hbegins, hlater⟩ := ih
    exact ⟨v, .cons h hbegins, hlater⟩

theorem WalksAll.later {w u : World} {parts : List Seq} {xss : List (List Value)}
    (h : WalksAll w parts xss u) : Later w u := by
  induction h with
  | nil => exact .refl _
  | last h => exact h.later
  | cons h _ ih =>
    obtain ⟨_, hbegins, hlater⟩ := h.begins
    exact (hbegins.later.trans hlater).trans ih

namespace Reads
variable {w v u : World} {parts left : List Seq} {xs ys : List Value}

theorem later (h : Reads w parts xs v left) : Later w v := by
  induction h with
  | nil => exact .refl _
  | cons h _ ih => exact h.later.trans ih

/-- Walking less far. -/
theorem take (h : Reads w parts xs u left) (k : Nat) :
    ∃ v next, Reads w parts (xs.take k) v next ∧ Later v u := by
  induction h generalizing k with
  | nil w parts =>
    rw [List.take_nil]
    exact ⟨w, parts, .nil w parts, .refl w⟩
  | @cons w _ u parts _ _ _ _ h hnext ih =>
    cases k with
    | zero => exact ⟨w, parts, .nil w parts, h.later.trans hnext.later⟩
    | succ k =>
      obtain ⟨v, next, hreads, hlater⟩ := ih k
      exact ⟨v, next, .cons h hreads, hlater⟩

/-- An empty part in front does not show. -/
theorem empty_cons (h : Reads w parts xs v left) : ∃ left, Reads w (.empty :: parts) xs v left := by
  cases h with
  | nil => exact ⟨_, .nil w _⟩
  | cons hsettles hnext => exact ⟨_, .cons (.skip (.empty w) hsettles) hnext⟩

/-- A used-up part does not show, once an element follows. -/
theorem skip {s : Seq} (h : Takes w s none v) (hreads : Reads v parts xs u left) (hxs : xs ≠ []) :
    Reads w (s :: parts) xs u left := by
  cases hreads with
  | nil => exact absurd rfl hxs
  | cons hsettles hnext => exact .cons (.skip h hsettles) hnext

theorem of_begins {s : Seq} (h : Begins w s xs v) (parts : List Seq) :
    ∃ left, Reads w (s :: parts) xs v left := by
  induction h with
  | nil w s => exact ⟨s :: parts, .nil w _⟩
  | cons h ht ih =>
    obtain ⟨left, hreads⟩ := ih
    exact ⟨left, .cons (.here parts h) hreads⟩

theorem walks_append {s : Seq} (h : Walks w s xs v) (hreads : Reads v parts ys u left)
    (hys : ys ≠ []) : Reads w (s :: parts) (xs ++ ys) u left := by
  induction h with
  | nil h => exact hreads.skip h hys
  | cons h ht ih => exact .cons (.here parts h) (ih hreads)

/-- Parts that stand for lists have the elements of these lists, in order. -/
theorem of_walksAll {xss : List (List Value)} (h : WalksAll w parts xss u) :
    ∃ v left, Reads w parts xss.flatten v left ∧ Later v u := by
  induction h with
  | nil w => exact ⟨w, [], .nil w [], .refl w⟩
  | @last _ v _ _ h =>
    obtain ⟨left, hreads⟩ := of_begins h []
    exact ⟨v, left, List.flatten_singleton.symm ▸ hreads, .refl v⟩
  | @cons w v u s xs parts xss h hparts ih =>
    rw [List.flatten_cons]
    obtain hnone | hsome := eq_or_ne xss.flatten []
    · -- the last element is one of the first part, and the others have not been looked at
      rw [hnone, List.append_nil]
      obtain ⟨v', hbegins, hlater⟩ := h.begins
      obtain ⟨left, hreads⟩ := of_begins hbegins parts
      exact ⟨v', left, hreads, hlater.trans hparts.later⟩
    · obtain ⟨v', left, hreads, hlater⟩ := ih
      exact ⟨v', left, walks_append h hreads hsome, hlater⟩

/-- Taking as many elements as a walk of some parts has gives just these and ends where the walk
ends, whatever parts there are behind. -/
theorem takeBy (look : Engine → Seq → Eval (Option (Value × Seq)))
    (hlook : ∀ {w v : World} {parts left : List Seq} {x : Value}, Settles w parts x v left →
      ∃ n, ∀ m, n ≤ m → ∀ back, look (.ofBudget m) (ofParts (parts ++ back)) w =
        .ok (some (x, ofParts (left ++ back))) v)
    (h : Reads w parts xs u left) :
    ∃ n, ∀ m, n ≤ m → ∀ back,
      Seq.takeBy (look (.ofBudget m)) xs.length (ofParts (parts ++ back)) w =
        .ok (xs, ofParts (left ++ back)) u := by
  induction h with
  | nil w parts => exact ⟨0, fun m _ back => rfl⟩
  | cons h hnext ih =>
    obtain ⟨n, hn⟩ := hlook h
    obtain ⟨l, hl⟩ := ih
    refine ⟨max n l, fun m hm back => ?_⟩
    have hhead := hn m (by omega) back
    have hmore := hl m (by omega) back
    exact (run_bind_ok hhead _).trans (run_bind_ok hmore _)

end Reads

end Seq

namespace Core

theorem seqOf_mapM {function : String} {args : List Value} {parts : List Seq}
    (hargs : args.map Value.toSeq? = parts.map some) (w : World) :
    args.mapM (seqOf function) w = .ok parts w := by
  induction args generalizing parts with
  | nil =>
    obtain rfl := List.map_eq_nil_iff.1 hargs.symm
    rfl
  | cons v args ih =>
    cases parts with
    | nil => cases hargs
    | cons s parts =>
      obtain ⟨hv, hmore⟩ := List.cons.inj hargs
      have hs : seqOf function v w = .ok s w := by
        rw [seqOf, hv]
        rfl
      rw [List.mapM_cons]
      exact (run_bind_ok hs _).trans (run_bind_ok (ih hmore) _)

/-- A concatenation of collections is made without a look at them. -/
theorem call_concat {args : List Value} {parts : List Seq}
    (hargs : args.map Value.toSeq? = parts.map some) (e : Engine) (scope : Scope) (w : World) :
    call e scope .concat args w = .ok (.seq (.concat .empty parts)) w :=
  run_bind_ok (seqOf_mapM hargs w) _

end Core

/-- If the first parts of a concatenation stand for lists with at least `k` elements in all, then
taking `k` elements gives these elements, by `first` and `rest` as an iteration does and also with a
test for emptiness before each step. The state that this ends in does not depend on the parts
behind, and a cell that walking the first parts leaves pending is pending in it. -/
theorem concat_reads_no_further {w u : World} {front : List Seq} {xss : List (List Value)} {k : Nat}
    (hfront : Seq.WalksAll w front xss u) (hk : k ≤ xss.flatten.length) :
    ∃ v, (∀ (c : CellId) (thunk : Value), w.cells[c]? = some (.pending thunk) →
        u.cells[c]? = some (.pending thunk) → v.cells[c]? = some (.pending thunk)) ∧
      ∃ n, ∀ m, n ≤ m → ∀ (back : List Seq) (args : List Value) (scope : Scope),
        args.map Value.toSeq? = (front ++ back).map some →
        ∃ s left, Core.call (.ofBudget m) scope .concat args w = .ok (.seq s) w ∧
          Seq.takeBy (·.uncons (.ofBudget m)) k s w = .ok (xss.flatten.take k, left) v ∧
          Seq.takeBy (·.unconsUnlessEmpty (.ofBudget m)) k s w =
            .ok (xss.flatten.take k, left) v := by
  obtain ⟨v', left', hreads', hlater'⟩ := Seq.Reads.of_walksAll hfront
  obtain ⟨v, left, hreads, hlater⟩ := hreads'.take k
  have hlength : (xss.flatten.take k).length = k := List.length_take_of_le hk
  -- a concatenation is made with an empty current part in front
  obtain ⟨left, hmade⟩ := hreads.empty_cons
  obtain ⟨n, hn⟩ := hmade.takeBy (fun e s => s.uncons e) Seq.Settles.uncons
  obtain ⟨l, hl⟩ := hmade.takeBy (fun e s => s.unconsUnlessEmpty e)
    Seq.Settles.unconsUnlessEmpty
  rw [hlength] at hn hl
  refine ⟨v, fun c thunk hw hu => ?_, max n l, fun m hm back args scope hargs => ?_⟩
  · obtain ⟨cell, hv, -⟩ := hreads.later c _ hw
    rw [(hlater.trans hlater').pending_before hv hu]
  · refine ⟨_, _, Core.call_concat hargs (.ofBudget m) scope w, hn m ?_ back, hl m ?_ back⟩
    · omega
    · omega

/-- A cell whose thunk gives `[1 2]` and one whose thunk cannot be called. -/
def soundAndUnsound : World where
  cells := #[.pending (.function 0), .pending (.int 1)]
  closures := #[⟨none, [⟨[], none, [.vector [.int 1, .int 2]]⟩], none, none⟩]

theorem concat_reads_no_further_unsound :
    ∃ v, v.cells[1]? = some (.pending (.int 1)) ∧ ∃ n, ∀ m, n ≤ m → ∃ s left,
      Core.call (.ofBudget m) none .concat
        [.seq (.concat .empty [.lazy 0]), .vector [.int 3], .seq (.lazy 1)] soundAndUnsound =
          .ok (.seq s) soundAndUnsound ∧
      Seq.takeBy (·.uncons (.ofBudget m)) 3 s soundAndUnsound =
        .ok ([.int 1, .int 2, .int 3], left) v ∧
      Seq.takeBy (·.unconsUnlessEmpty (.ofBudget m)) 3 s soundAndUnsound =
        .ok ([.int 1, .int 2, .int 3], left) v := by
  have hcell : soundAndUnsound.cells[0]? = some (.pending (.function 0)) := rfl
  have hrealize : Seq.realize (.ofBudget 9) 0 soundAndUnsound =
      .ok (.vectorView [.int 1, .int 2] 0) ((Seq.realize (.ofBudget 9) 0).after soundAndUnsound) :=
    rfl
  generalize hu : (Seq.realize (.ofBudget 9) 0).after soundAndUnsound = u at hrealize
  have hkept : u.cells[0]? = some (.realized (.vectorView [.int 1, .int 2] 0)) :=
    Seq.realize_keeps (Engine.ofBudget_keepsCells 9) hrealize
  -- the first look runs the thunk, the others are in the state that it leaves
  have hinner : Seq.Walks soundAndUnsound (.concat .empty [.lazy 0]) [.int 1, .int 2] u :=
    .cons (.next (.empty _) (.part [] (.lazy hcell hrealize (.vectorView u _ 0))))
      (.cons (.part [] (.vectorView u _ 1)) (.nil (.last (.empty u))))
  have houter : Seq.Walks u (.vectorView [.int 3] 0) [.int 3] u :=
    .cons (.vectorView u _ 0) (.nil (.empty u))
  obtain ⟨v, hpending, n, hn⟩ :=
    concat_reads_no_further (k := 3) (.cons hinner (.cons houter (.nil u))) (Nat.le_refl 3)
  have hstill : u.cells[1]? = some (.pending (.int 1)) := by
    rw [← hu]
    rfl
  exact ⟨v, hpending 1 (.int 1) rfl hstill, n, fun m hm => hn m hm [.lazy 1] _ none rfl⟩

end LazyLisp
