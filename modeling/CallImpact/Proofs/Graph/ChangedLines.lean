import CallImpact.Proofs.Graph.NestedScopes
import CallImpact.Proofs.Graph.Renumbering
import CallImpact.Proofs.Session.Table

/-!
# Changed lines lead to the callers

Occurrences are attributed by points, to the innermost scope around them, and changed lines are
looked up by rows, in the declarations of the vertices.  The two agree on every reference: the
line of an occurrence by which a function refers to another one lies in the declaration of the
vertex of that function.  So whoever changes this line finds the caller, and the other function
among its callees.
-/

namespace CallImpact

/-- A declaration that encloses its body encloses its scope. -/
theorem FunctionDecl.span_encloses_scope {f : FunctionDecl}
    (h : f.bodySpan.isEmpty = false → f.span.encloses f.bodySpan = true) :
    f.span.encloses f.scope = true := by
  rw [scope]
  by_cases hempty : f.bodySpan.isEmpty = true
  · rw [if_pos hempty]
    exact f.span.encloses_refl
  · rw [if_neg hempty]
    exact h (Bool.eq_false_iff.mpr hempty)

namespace FunctionGraph

variable {g : FunctionGraph} {f caller callee : LocatedFunction} {path : String}
  {lines : List UInt32} {u v : Nat}

theorem mem_touching_iff :
    f ∈ g.touching path lines ↔
      f ∈ g.vertices ∧ f.path = path ∧ ∃ line ∈ lines, f.decl.span.containsLine line = true := by
  rw [touching, List.mem_filter, Bool.and_eq_true, decide_eq_true_iff, Span.containsAnyLine,
    List.any_eq_true]

/-- A function that owns an occurrence is found by the line of the occurrence. -/
theorem mem_touching_of_encloses {owner : LocatedFunction} {o : Occurrence}
    (hu : g.vertices[u]? = some caller) (hsame : owner.descriptor = caller.descriptor)
    (hbody : owner.decl.bodySpan.isEmpty = false →
      owner.decl.span.encloses owner.decl.bodySpan = true)
    (hencloses : owner.decl.scope.encloses o.span = true)
    (hspan : o.span.start ≤ o.span.stop) (hline : o.line ∈ lines) :
    caller ∈ g.touching caller.path lines := by
  -- the owner may be another function than the one kept, but it was declared in the same span
  have hdecl : owner.decl.span = caller.decl.span := congrArg Descriptor.span hsame
  have hinside : caller.decl.span.encloses o.span = true :=
    hdecl ▸ Span.encloses_trans (FunctionDecl.span_encloses_scope hbody) hencloses
  rw [mem_touching_iff]
  exact ⟨List.mem_of_getElem? hu, rfl, o.line, hline,
    Span.containsLine_of_encloses hinside hspan⟩

/-- In every session about the graph a function that is touched by lines is found, and its
callees with it. -/
theorem exists_mem_neighbourhoodsByLines {s : Session} (hg : g.WellFormed) (hs : s.Serves g)
    (hu : g.vertices[u]? = some caller) (hv : g.vertices[v]? = some callee)
    (hedge : (u, v) ∈ g.callGraph.edges) (htouched : caller ∈ g.touching path lines) :
    ∃ contexts,
      ((Session.answer (.neighbourhoodsByLines path lines)).run s).1 =
          .neighbourhoods contexts ∧
        ∃ n ∈ contexts, n.function = caller ∧ callee ∈ n.callees := by
  have hanswer := Session.performs_neighbourhoodsOf g (fun g => g.touching path lines) s hs
  have hcallee : callee ∈ g.neighbours caller.descriptor .calls :=
    (mem_neighbours_of_getElem? hg hu).mpr ⟨v, hv, hedge⟩
  exact ⟨_, congrArg Prod.fst hanswer, g.neighbourhood caller,
    List.mem_map_of_mem htouched, rfl, hcallee⟩

/-- An edge of a built graph is a reference between the descriptors of its ends. -/
theorem refersAs_of_mem_edges_build {limits : Limits}
    {functionFiles : List (SourceFile FunctionDecl)}
    {occurrenceFiles : List (SourceFile Occurrence)}
    (hedge : (u, v) ∈ (build limits functionFiles occurrenceFiles).callGraph.edges)
    (hu : (build limits functionFiles occurrenceFiles).vertices[u]? = some caller)
    (hv : (build limits functionFiles occurrenceFiles).vertices[v]? = some callee) :
    RefersAs limits (functionsOf functionFiles) occurrenceFiles caller.descriptor
      callee.descriptor := by
  have hplace : ∀ {w : Nat} {f : LocatedFunction},
      (build limits functionFiles occurrenceFiles).vertices[w]? = some f →
        (distinctDescriptors (functionsOf functionFiles))[w]? = some f.descriptor := by
    intro w f hw
    rw [← (represents_build limits functionFiles occurrenceFiles).descriptors_eq]
    exact getElem?_descriptors_iff.mpr ⟨f, hw, rfl⟩
  exact (mem_edges_build_iff.mp hedge).refersAs (hplace hu) (hplace hv)

/-- If declarations enclose their bodies and no occurrence is inverted, then for every reference
of a built graph there is an occurrence in the file of the caller, with the name of a function
that the vertex of the callee stands for, whose line leads to both: among whatever lines it comes,
they touch the caller, and the neighbourhoods found by them show the callee as one of the functions
that the caller calls. -/
theorem build_changed_line_reaches (limits : Limits)
    (functionFiles : List (SourceFile FunctionDecl))
    (occurrenceFiles : List (SourceFile Occurrence))
    (hbodies : ∀ file ∈ functionFiles, ∀ d ∈ file.units,
      d.bodySpan.isEmpty = false → d.span.encloses d.bodySpan = true)
    (hspans : ∀ file ∈ occurrenceFiles, ∀ o ∈ file.units, o.span.start ≤ o.span.stop) :
    let g := build limits functionFiles occurrenceFiles
    ∀ u v caller callee, (u, v) ∈ g.callGraph.edges →
      g.vertices[u]? = some caller → g.vertices[v]? = some callee →
      ∃ file ∈ occurrenceFiles, ∃ o ∈ file.units, file.path = caller.path ∧
        (∃ f ∈ functionsOf functionFiles,
          f.descriptor = callee.descriptor ∧ o.text = f.decl.name) ∧
        ∀ lines, o.line ∈ lines → ∀ s : Session, s.Serves g →
          (∃ functions,
            ((Session.answer (.byLines caller.path lines)).run s).1 = .functions functions ∧
              caller ∈ functions) ∧
          ∃ contexts,
            ((Session.answer (.neighbourhoodsByLines caller.path lines)).run s).1 =
                .neighbourhoods contexts ∧
              ∃ n ∈ contexts, n.function = caller ∧ callee ∈ n.callees := by
  intro g u v caller callee hedge hu hv
  have hg : g.WellFormed := wellFormed_build limits functionFiles occurrenceFiles
  have hrefers := refersAs_of_mem_edges_build hedge hu hv
  obtain ⟨-, f, hf, hsame, -, ⟨file, hfile, o, ho, htext, howner⟩, -⟩ := hrefers
  obtain ⟨owner, howner, hsame', hencloses, -⟩ := howner
  obtain ⟨howner, hpath⟩ := List.mem_filter.mp howner
  have hbody : owner.decl.bodySpan.isEmpty = false →
      owner.decl.span.encloses owner.decl.bodySpan = true := by
    obtain ⟨ownerFile, hownerFile, hunit⟩ := List.mem_flatMap.mp howner
    obtain ⟨d, hd, rfl⟩ := List.mem_map.mp hunit
    exact hbodies ownerFile hownerFile d hd
  have hfilePath : file.path = caller.path :=
    (of_decide_eq_true hpath).symm.trans (congrArg Descriptor.path hsame')
  refine ⟨file, hfile, o, ho, hfilePath, ⟨f, hf, hsame, htext⟩, ?_⟩
  intro lines hline s hs
  have htouched : caller ∈ g.touching caller.path lines :=
    mem_touching_of_encloses hu hsame' hbody hencloses (hspans file hfile o ho) hline
  have hfound := Session.performs_read g
    (fun g => .functions (g.touching caller.path lines)) s hs
  exact ⟨⟨_, congrArg Prod.fst hfound, htouched⟩,
    exists_mem_neighbourhoodsByLines hg hs hu hv hedge htouched⟩

/-- A file that declares one function twice, with different bodies, and another function. -/
def declaredTwice : SourceFile FunctionDecl where
  path := "m.go"
  units :=
    [.ofSpans "main" (.ofRows 0 9) (.ofRows 1 3), .ofSpans "main" (.ofRows 0 9) (.ofRows 5 8),
      .ofSpans "helper" (.ofRows 11 12) (.ofRows 11 12)]

/-- An occurrence in the second one of the two bodies. -/
def helperOccurrence : SourceFile Occurrence where
  path := "m.go"
  units := [{ text := "helper", span := .ofRows 6 6 }]

/-- The vertex keeps the first body, and the line of an occurrence in the second one leads to
it. -/
theorem build_changed_line_reaches_declaredTwice :
    let s := Session.ofGraph (build {} [declaredTwice] [helperOccurrence])
    let caller : LocatedFunction := ⟨.ofSpans "main" (.ofRows 0 9) (.ofRows 1 3), "m.go"⟩
    let callee : LocatedFunction := ⟨.ofSpans "helper" (.ofRows 11 12) (.ofRows 11 12), "m.go"⟩
    (∃ functions,
      ((Session.answer (.byLines "m.go" [20, 6])).run s).1 = .functions functions ∧
        caller ∈ functions) ∧
      ∃ contexts,
        ((Session.answer (.neighbourhoodsByLines "m.go" [20, 6])).run s).1 =
            .neighbourhoods contexts ∧
          ∃ n ∈ contexts, n.function = caller ∧ callee ∈ n.callees := by
  intro s caller callee
  have hreaches := build_changed_line_reaches {} [declaredTwice] [helperOccurrence]
    (by decide +kernel) (by decide +kernel) 0 1 caller callee
    (by decide +kernel) (by decide +kernel) (by decide +kernel)
  obtain ⟨file, hfile, o, ho, -, -, hlines⟩ := hreaches
  obtain rfl := List.mem_singleton.mp hfile
  obtain rfl := List.mem_singleton.mp ho
  exact hlines [20, 6] (by decide) s (Session.serves_ofGraph _)

end FunctionGraph
end CallImpact
