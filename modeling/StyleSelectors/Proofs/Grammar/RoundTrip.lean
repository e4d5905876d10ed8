/-
Which groups survive being written and read again. A group that was read does so exactly if no two
dashes in it come before `>`, where they close markup, and every member still means what it meant
once its namespaces are printed and its parts have joined: `Group.roundTrips_iff_of_parse`.
-/
import StyleSelectors.Proofs.Grammar.Denoted
import StyleSelectors.Proofs.Selector.Alike

namespace StyleSelectors

open Grammar

namespace Group

variable {g : Group}

/-- Whether the text of a group reads as a group of as many members, each like the one it was. -/
def RoundTrips (g : Group) : Prop :=
  ∃ r, (Group.parse g.css).result = .ok r ∧ r.members.length = g.members.length ∧
    ∀ p ∈ r.members.zip g.members, p.1.Alike p.2

/-! ## Members -/

theorem alike_zip_iff {rs ss : List Selector} {f : Selector → Selector} (h : rs.map Selector.erase = ss.map f) :
    (∀ p ∈ rs.zip ss, p.1.Alike p.2) ↔ ∀ s ∈ ss, (f s).Alike s := by
  induction rs generalizing ss with
  | nil =>
    obtain rfl := List.map_eq_nil_iff.1 h.symm
    exact ⟨nofun, nofun⟩
  | cons r rs ih =>
    cases ss with
    | nil => cases h
    | cons s ss =>
      obtain ⟨hr, hrs⟩ := List.cons.inj h
      have halike : r.Alike s ↔ (f s).Alike s := by
        rw [← hr]
        exact ⟨r.alike_erase.trans, r.alike_erase.symm.trans⟩
      rw [List.zip_cons_cons, List.forall_mem_cons, List.forall_mem_cons, ih hrs, halike]

/-- A group that can be read survives if no dashes in it close markup and all members are read back
as they were. -/
theorem Readable.roundTrips_iff (h : g.Readable) :
    g.RoundTrips ↔ ∀ s ∈ g.members, s.closesMarkup = false ∧ s.printed.reread.Alike s := by
  constructor
  · rintro ⟨r, hr, -, halike⟩
    -- had dashes closed markup, the text would not have been read at all
    have hopen : ∀ s ∈ g.members, s.closesMarkup = false := by
      intro s hs
      cases hclose : s.closesMarkup with
      | false => rfl
      | true =>
        obtain ⟨e, he⟩ := parse_css_of_closesMarkup h ⟨s, hs, hclose⟩
        cases he.symm.trans hr
    obtain ⟨q, hq, hmembers⟩ := parse_css h hopen
    cases hr.symm.trans hq
    exact fun s hs => ⟨hopen s hs, (alike_zip_iff hmembers).1 halike s hs⟩
  · intro halike
    obtain ⟨r, hr, hmembers⟩ := parse_css h fun s hs => (halike s hs).1
    refine ⟨r, hr, ?_, (alike_zip_iff hmembers).2 fun s hs => (halike s hs).2⟩
    rw [← List.length_map Selector.erase, hmembers, List.length_map]

/-- Where members are printed as they are, no dashes close markup and no parts join, a group survives. -/
theorem Readable.roundTrips (h : g.Readable) (hprinted : ∀ s ∈ g.members, s.printed = s)
    (hopen : ∀ s ∈ g.members, s.closesMarkup = false) (hapart : ∀ s ∈ g.members, s.isApart = true) :
    g.RoundTrips := by
  refine h.roundTrips_iff.2 fun s hs => ⟨hopen s hs, ?_⟩
  rw [hprinted s hs]
  exact s.alike_reread_of_isApart (h.isLayered s hs) (hapart s hs)

/-! ## Groups that were read -/

theorem readable_of_parse {text : String} {o : Options} (h : (Group.parse text o).result = .ok g)
    (hclosed : ∀ s ∈ g.members, ∀ p ∈ s.parts, p.isClosed = true) : g.Readable where
  legible s hs := by
    rw [Selector.Legible, Selector.printed, s.parts_map, List.forall_mem_map]
    exact fun p hp => (isRead_of_parse h s hs).parts p hp (hclosed s hs p hp)
  isLayered s hs := (isRead_of_parse h s hs).isLayered

/-- A group that was read, with arguments that stay inside their brackets, survives exactly if no
dashes in it close markup and every member means what it meant. -/
theorem roundTrips_iff_of_parse {text : String} {o : Options} (h : (Group.parse text o).result = .ok g)
    (hclosed : ∀ s ∈ g.members, ∀ p ∈ s.parts, p.isClosed = true) :
    g.RoundTrips ↔ ∀ s ∈ g.members, s.closesMarkup = false ∧ s.printed.reread.Alike s :=
  (readable_of_parse h hclosed).roundTrips_iff

/-! ## Two dashes before a child -/

/-- An element within one whose name is two dashes. -/
def dashedParent : Group :=
  ⟨.related .child (.type ⟨.any, "--"⟩) (.simple (.type ⟨.any, "a"⟩)) (some ⟨0, 1, 1, none⟩), [],
    some ⟨0, 1, 1, none⟩⟩

/-- The nodes of `-- > a`, each with its places. -/
def dashedNodes : List (Node Text.Position) :=
  [.leaf (.ident "--") ⟨0, 0, 1⟩ ⟨2, 0, 3⟩, .leaf (.whitespace " ") ⟨2, 0, 3⟩ ⟨3, 0, 4⟩,
    .leaf (.delim '>') ⟨3, 0, 4⟩ ⟨4, 0, 5⟩, .leaf (.whitespace " ") ⟨4, 0, 5⟩ ⟨5, 0, 6⟩,
    .leaf (.ident "a") ⟨5, 0, 6⟩ ⟨6, 0, 7⟩]

theorem parse_dashedParent : (Group.parse "-- > a").result = .ok dashedParent := by
  have hlexemes : Lexeme.ofChars "-- > a".toList =
      [⟨.ident "--", ['-', '-']⟩, ⟨.whitespace " ", [' ']⟩, ⟨.delim '>', ['>']⟩, ⟨.whitespace " ", [' ']⟩,
        ⟨.ident "a", ['a']⟩] := by
    decide +kernel
  have hnodes : Cursor.ofChars "-- > a".toList = ⟨.start, dashedNodes, ⟨6, 0, 7⟩⟩ :=
    Cursor.ofChars_of_lexemes hlexemes (show _ = [.leaf _, .leaf _, .leaf _, .leaf _, .leaf _] from rfl)
      (by simp only [Node.ofComponents]; rfl)
  have hparent : Parts .any (dashedNodes.take 1) [.type ⟨.any, "--"⟩] := .bare (.type "--") NoBar.nil .nil
  have hsign : Link (((dashedNodes.drop 1).take 3).map Node.token) .child :=
    .sign (a := [.whitespace " "]) (b := [.whitespace " "]) (List.forall_mem_singleton.2 ⟨" ", rfl⟩) .child
      (List.forall_mem_singleton.2 ⟨" ", rfl⟩)
  have helement : Parts .any (dashedNodes.drop 4) [.type ⟨.any, "a"⟩] := .bare (.type "a") NoBar.nil .nil
  have hsubject := Chain.subject helement (show Blank ([].map Node.token) from List.forall_mem_nil _)
  exact parse_of_nodes hnodes rfl
    (.cons ⟨[], _, _, rfl, List.forall_mem_nil _, .link hparent hsign hsubject, rfl⟩ .nil)

theorem roundTrips_iff_dashedParent :
    (Group.parse "-- > a").result = .ok dashedParent ∧
      (dashedParent.RoundTrips ↔ ∀ s ∈ dashedParent.members, s.closesMarkup = false ∧ s.printed.reread.Alike s) :=
  ⟨parse_dashedParent, roundTrips_iff_of_parse parse_dashedParent (by decide)⟩

/-- `-- > a` is written as `-->a`, which is refused. -/
theorem not_roundTrips_dashedParent :
    (Group.parse "-- > a").result = .ok dashedParent ∧ dashedParent.css = "-->a" ∧ ¬ dashedParent.RoundTrips := by
  have hreadable : dashedParent.Readable := readable_of_parse parse_dashedParent (by decide)
  refine ⟨parse_dashedParent, by decide +kernel, ?_⟩
  intro h
  have hopen := (hreadable.roundTrips_iff.1 h dashedParent.first (List.mem_cons_self ..)).1
  cases hopen

end Group

end StyleSelectors
