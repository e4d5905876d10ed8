/-
What all parts of a group that is read are like. A group has one member for each stretch between
commas, and this is what the stretch denotes (`Cursor.group_eq_ok_iff`). So whatever the rules of
the grammar hand down, from nodes to those inside functions and from these to parts, holds of all
parts: `Grammar.Hereditary.of_group`.
-/
import StyleSelectors.Proofs.Grammar.Members

namespace StyleSelectors

open Text Grammar

variable {P : Type}

namespace Cursor

variable {c : Cursor P} {ns : Namespace} {locate : P → Locator}

theorem selector_eq_ok_iff {s : Selector} :
    (c.selector locate ns).result = .ok s ↔ Denotes ns locate c.rest s :=
  ⟨denotes_of_selector, selector_of_denotes⟩

theorem selectors_eq_ok_iff {cs : List (Cursor P)} {ss : List Selector} :
    (selectors locate ns cs).result = .ok ss ↔
      List.Forall₂ (fun c s => (selector locate ns c).result = .ok s) cs ss := by
  induction cs generalizing ss with
  | nil =>
    rw [List.forall₂_nil_left_iff]
    exact ⟨fun h => by cases h; rfl, fun h => by rw [h]; rfl⟩
  | cons c cs ih =>
    constructor
    · intro h
      obtain ⟨s, hs, hmore⟩ := Report.bind_eq_ok h
      obtain ⟨rest, hrest, rfl⟩ := Report.map_eq_ok hmore
      exact .cons hs (ih.1 hrest)
    · rintro (_ | ⟨hs, hrest⟩)
      rw [selectors, Report.bind_ok hs, Report.map, ih.2 hrest]
      rfl

/-- A group is read exactly if its members are what the stretches between commas denote. -/
theorem group_eq_ok_iff {g : Group} :
    (c.group locate ns).result = .ok g ↔
      g.locator = some (locate c.here) ∧
        List.Forall₂ (fun d s => Denotes ns locate (rest d) s) c.stretches g.members := by
  have hiff : List.Forall₂ (fun d s => Denotes ns locate (rest d) s) c.stretches g.members ↔
      (selectors locate ns c.stretches).result = .ok g.members := by
    rw [selectors_eq_ok_iff]
    simp only [selector_eq_ok_iff]
  rw [hiff, ← group_members]
  constructor
  · intro h
    obtain ⟨s, -, hmore⟩ := Report.bind_eq_ok h
    obtain ⟨ss, -, rfl⟩ := Report.map_eq_ok hmore
    exact ⟨rfl, by rw [h]; rfl⟩
  · rintro ⟨hlocator, h⟩
    obtain ⟨g', hg', hmembers⟩ := map_eq_ok h
    obtain ⟨s, -, hmore⟩ := Report.bind_eq_ok hg'
    obtain ⟨ss, -, rfl⟩ := Report.map_eq_ok hmore
    obtain ⟨first, others, locator⟩ := g
    cases hlocator
    cases hmembers
    exact hg'

theorem selectors_of_failure {front back : List (Cursor P)} {d : Cursor P} {f : Failure P}
    (hfront : ∀ e ∈ front, ∃ s, (e.selector locate ns).result = .ok s) (hd : (d.selector locate ns).result = .error f) :
    (selectors locate ns (front ++ d :: back)).result = .error f := by
  induction front with
  | nil => exact congrArg Report.result (Report.bind_of_error hd)
  | cons e front ih =>
    obtain ⟨⟨s, hs⟩, hfront⟩ := List.forall_mem_cons.1 hfront
    rw [List.cons_append, selectors, Report.bind_ok hs, Report.map, ih hfront]
    rfl

/-- A group fails as the first of its stretches that does. -/
theorem group_of_failure {front back : List (Cursor P)} {d : Cursor P} {f : Failure P}
    (hc : c.stretches = front ++ d :: back) (hfront : ∀ e ∈ front, ∃ s, (e.selector locate ns).result = .ok s)
    (hd : (d.selector locate ns).result = .error f) : (c.group locate ns).result = .error f := by
  have hmembers : (c.group locate ns).result.map Group.members = (selectors locate ns c.stretches).result :=
    group_members c
  rw [hc, selectors_of_failure hfront hd] at hmembers
  cases hg : (c.group locate ns).result with
  | ok g => rw [hg] at hmembers; cases hmembers
  | error e => rw [hg] at hmembers; cases hmembers; rfl

/-- What stands in a stretch stands ahead. -/
theorem mem_of_mem_pieces {here stop : P} {xs : List (Node P)} {d : Cursor P} {n : Node P}
    (hd : d ∈ (pieces here stop xs).1 :: (pieces here stop xs).2) (hn : n ∈ d.rest) : n ∈ xs := by
  induction xs generalizing here d with
  | nil =>
    obtain rfl := List.mem_singleton.1 hd
    cases hn
  | cons m xs ih =>
    rw [pieces] at hd
    split at hd
    · rcases List.mem_cons.1 hd with rfl | hd
      · cases hn
      · exact List.mem_cons_of_mem _ (ih hd hn)
    · rcases List.mem_cons.1 hd with rfl | hd
      · rcases List.mem_cons.1 hn with rfl | hn
        · exact List.mem_cons_self ..
        · exact List.mem_cons_of_mem _ (ih (List.mem_cons_self ..) hn)
      · exact List.mem_cons_of_mem _ (ih (List.mem_cons_of_mem _ hd) hn)

end Cursor

/-- A text is read as a group exactly if the members are what its stretches denote. -/
theorem Group.parse_eq_ok_iff {text : String} {o : Options} {g : Group} :
    (Group.parse text o).result = .ok g ↔
      g.locator = some (o.locate .start) ∧
        List.Forall₂ (fun d s => Denotes o.defaultNamespace o.locate (Cursor.rest d) s)
          (Cursor.ofChars text.toList).stretches g.members := by
  constructor
  · intro h
    exact Cursor.group_eq_ok_iff.1 (Report.result_of_toParsed h)
  · intro h
    rw [parse_result, Cursor.group_eq_ok_iff.2 h]
    rfl

/-! ## Texts whose lexemes are known -/

/-- The nodes of a text, from its lexemes. -/
theorem Cursor.ofChars_of_lexemes {cs : List Char} {xs : List Lexeme} {components : List Component}
    {nodes : List (Node Position)} {stop : Position} (hlexemes : Lexeme.ofChars cs = xs)
    (hcomponents : Component.ofLexemes xs = components)
    (hnodes : Node.ofComponents .start components = (nodes, stop)) :
    Cursor.ofChars cs = ⟨.start, nodes, stop⟩ := by
  rw [ofChars, Component.ofChars, hlexemes, hcomponents, hnodes]

namespace Group

variable {text : String} {o : Options} {c : Cursor Position}

/-- A text is read as the group whose members its nodes denote. -/
theorem parse_of_nodes {g : Group} (hnodes : Cursor.ofChars text.toList = c)
    (hlocator : g.locator = some (o.locate .start))
    (hmembers : List.Forall₂ (fun d s => Denotes o.defaultNamespace o.locate (Cursor.rest d) s) c.stretches g.members) :
    (Group.parse text o).result = .ok g := by
  rw [parse_eq_ok_iff, hnodes]
  exact ⟨hlocator, hmembers⟩

/-- A text fails as the first of its stretches that does. -/
theorem parse_of_failure {front back : List (Cursor Position)} {d : Cursor Position} {f : Failure Position}
    (hnodes : Cursor.ofChars text.toList = c) (hstretches : c.stretches = front ++ d :: back)
    (hfront : ∀ e ∈ front, ∃ s, (e.selector o.locate o.defaultNamespace).result = .ok s)
    (hd : (d.selector o.locate o.defaultNamespace).result = .error f) :
    (Group.parse text o).result = .error (f.toError o text.toList) := by
  rw [parse_result, hnodes, Cursor.group_of_failure hstretches hfront hd]
  rfl

end Group

/-- A part by itself is a selector. -/
theorem Grammar.denotes_of_parts {ns : Namespace} {locate : P → Locator} {xs : List (Node P)} {s : Simple}
    (h : Parts ns xs [s]) : Denotes ns locate xs (.simple s) := by
  obtain ⟨n, rest, rfl, -⟩ := h.startsPart
  refine ⟨[], _, .subject ⟨n.start, s, []⟩, rfl, nofun, ?_, rfl⟩
  have hchain := Chain.subject h (show Blank ([].map Node.token) from nofun)
  rwa [List.append_nil] at hchain

/-! ## Parts of trees -/

/-- The simple selectors of all compounds, from the first to the subject. -/
def Complex.simples : Complex P → List Simple
  | .subject k => k.first :: k.others
  | .link k _ rest => k.first :: k.others ++ rest.simples

theorem Complex.parts_nested (locate : P → Locator) {x : Complex P} (h : x.simpleOnLeft = true) :
    (x.nested locate).parts = x.simples := by
  induction x with
  | subject k =>
    rw [nested, ← conjunction_eq_joined]
    exact (Selector.parts_conjunction _ _ _).1
  | link k link rest ih =>
    rw [simpleOnLeft, Bool.and_eq_true, List.isEmpty_iff] at h
    rw [nested, Selector.parts, ih h.2, simples, h.1]
    rfl

/-- The parts of a tree are those of the compounds, unless there is no tree. -/
theorem Complex.parts_denoted (locate : P → Locator) (x : Complex P) :
    (x.denoted locate).parts = if x.simpleOnLeft then x.simples else [.nothing] := by
  rw [denoted]
  split
  · next h => exact parts_nested locate h
  · rfl

/-! ## What is handed down -/

namespace Grammar

/-- Whether `Q` holds of what each rule makes of nodes of which `N` holds, and of negations if it holds
of what is inside them. -/
structure Hereditary (ns : Namespace) (N : Node P → Prop) (Q : Simple → Prop) : Prop where
  inside {n : Node P} {name : String} (hn : N n) (hname : n.token = .function name) : ∀ m ∈ n.inside, N m
  bare {n : Node P} {s : Simple} (hn : N n) (hs : Bare ns n.token s) : Q s
  part {xs : List (Node P)} {s : Simple} (hxs : ∀ n ∈ xs, N n) (hs : Part xs s) : Q s
  nothing : Q .nothing
  negation {s : Simple} (hs : Q s) (hsome : s ≠ .nothing) : Q (.negation s)

namespace Hereditary

variable {ns : Namespace} {N : Node P → Prop} {Q : Simple → Prop} {locate : P → Locator} {xs : List (Node P)}

theorem negated (h : Hereditary ns N Q) {s : Simple} {ss : List Simple} (hs : Q s) : Q (negated (s :: ss)) := by
  unfold Grammar.negated
  split
  · next heq =>
    cases heq
    split
    · exact h.nothing
    · next hsome => exact h.negation hs hsome
  · exact h.nothing

theorem of_parts (h : Hereditary ns N Q) {ss : List Simple} (hxs : Parts ns xs ss) (hN : ∀ n ∈ xs, N n) :
    ∀ s ∈ ss, Q s := by
  induction hxs with
  | nil => exact nofun
  | bare hn _ _ ih =>
    obtain ⟨hhead, hrest⟩ := List.forall_mem_cons.1 hN
    exact List.forall_mem_cons.2 ⟨h.bare hhead hn, ih hrest⟩
  | part hxs _ ih =>
    obtain ⟨hfront, hrest⟩ := List.forall_mem_append.1 hN
    exact List.forall_mem_cons.2 ⟨h.part hfront hxs, ih hrest⟩
  | negation _ hn _ hinside _ _ _ _ ihInside ih =>
    obtain ⟨-, hN⟩ := List.forall_mem_cons.1 hN
    obtain ⟨hhead, hrest⟩ := List.forall_mem_cons.1 hN
    -- the argument stands inside the function, between blanks
    have hwithin := h.inside hhead hn
    rw [hinside] at hwithin
    have hargument := (List.forall_mem_append.1 (List.forall_mem_append.1 hwithin).1).2
    exact List.forall_mem_cons.2 ⟨h.negated (ihInside hargument _ (List.mem_cons_self ..)), ih hrest⟩

theorem of_chain (h : Hereditary ns N Q) {x : Complex P} (hxs : Chain ns xs x) (hN : ∀ n ∈ xs, N n) :
    ∀ s ∈ x.simples, Q s := by
  induction hxs with
  | subject hparts => exact h.of_parts hparts (List.forall_mem_append.1 hN).1
  | link hparts _ _ ih =>
    obtain ⟨hfront, hrest⟩ := List.forall_mem_append.1 hN
    exact List.forall_mem_append.2 ⟨h.of_parts hparts hfront, ih (List.forall_mem_append.1 hrest).2⟩

theorem of_denotes (h : Hereditary ns N Q) {s : Selector} (hxs : Denotes ns locate xs s) (hN : ∀ n ∈ xs, N n) :
    ∀ p ∈ s.parts, Q p := by
  obtain ⟨a, ys, x, rfl, -, hys, rfl⟩ := hxs
  rw [x.parts_denoted]
  split
  · exact h.of_chain hys (List.forall_mem_append.1 hN).2
  · exact List.forall_mem_singleton.2 h.nothing

/-- What the rules hand down from all nodes ahead holds of all parts of the group that is read. -/
theorem of_group (h : Hereditary ns N Q) {c : Cursor P} {g : Group} (hg : (c.group locate ns).result = .ok g)
    (hN : ∀ n ∈ c.rest, N n) : ∀ s ∈ g.members, ∀ p ∈ s.parts, Q p := by
  have hall : List.Forall₂ (fun d s => (∀ n ∈ Cursor.rest d, n ∈ c.rest) ∧ Denotes ns locate (Cursor.rest d) s)
      c.stretches g.members :=
    (List.forall₂_and_left ..).2 ⟨fun _ hd _ hn => Cursor.mem_of_mem_pieces hd hn, (Cursor.group_eq_ok_iff.1 hg).2⟩
  have hmembers : List.Forall₂ (fun s _ => (∀ p ∈ Selector.parts s, Q p) ∧ True) g.members c.stretches :=
    (hall.imp fun _ _ hd => ⟨h.of_denotes hd.2 fun n hn => hN n (hd.1 n hn), trivial⟩).flip
  exact ((List.forall₂_and_left ..).1 hmembers).1

end Hereditary

end Grammar

end StyleSelectors
