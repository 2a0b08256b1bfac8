import Asm6510.Analysis.Cache
import Asm6510.Proofs.Analysis.Returns
import Mathlib

/-!
# Remembering analyses shows nowhere

* `Session.Step`, `Session.perform`: one step of a session, with what it gives.
* `Session.after`, `Session.log`: the session behind some steps, and what they gave.
* `Session.Distinct`: the digests of the texts and the identities of the references tell them apart.
* `Session.Sound`: every remembered analysis is that of a text and a reference of the steps before.

What a step remembers is sound (`Sound.request`), so a session is sound behind any steps
(`sound_after`), and a remembered analysis that fits is the one that would be made anew
(`Sound.request_fst`).

Main statement: `Session.request_transparent`.
-/

namespace Asm6510

namespace Cache

variable {c : Cache} {ref : Option SharedReference} {settings : Settings} {uri text : String}

/-- **What a request can do.** It finds an entry that fits, or the analysis fails and nothing
changes, or an analysis is made and stored. -/
theorem request_cases (c : Cache) (ref : Option SharedReference) (settings : Settings)
    (uri text : String) :
    (∃ e, (uri, e) ∈ c.entries ∧ e.digest = contentDigest text ∧
      e.referenceId = ref.map SharedReference.id ∧ e.settings = settings ∧
      c.request ref settings uri text =
        (.ok (e.serial, e.analysis), { c with hits := c.hits + 1 })) ∨
    (∃ fault, analyze (ref.map SharedReference.reference) settings uri text = .error fault ∧
      c.request ref settings uri text = (.error fault, c)) ∨
    ∃ analysis, analyze (ref.map SharedReference.reference) settings uri text = .ok analysis ∧
      c.request ref settings uri text = (.ok (c.made, analysis),
        { c with misses := c.misses + 1, made := c.made + 1 }.store uri
          ⟨contentDigest text, ref.map SharedReference.id, settings, c.made, analysis⟩) := by
  unfold request
  dsimp only
  split
  · rename_i e he
    obtain ⟨hget, hfits⟩ := Option.filter_eq_some_iff.1 he
    simp only [CacheEntry.fits, Bool.and_eq_true, beq_iff_eq] at hfits
    obtain ⟨⟨hdigest, hid⟩, hsettings⟩ := hfits
    refine .inl ⟨e, ?_, hdigest, hid, hsettings, rfl⟩
    obtain ⟨front, rest, hentries, -⟩ := List.lookup_eq_some_iff.1 hget
    rw [hentries]
    exact List.mem_append_right _ List.mem_cons_self
  · split
    · rename_i fault hfault
      exact .inr (.inl ⟨fault, hfault, rfl⟩)
    · rename_i analysis hanalysis
      exact .inr (.inr ⟨analysis, hanalysis, rfl⟩)

/-- What is stored is the new entry, if it has a program, and what was there. -/
theorem mem_store {entry : CacheEntry} {x : String × CacheEntry}
    (h : x ∈ (c.store uri entry).entries) :
    x ∈ c.entries ∨ x = (uri, entry) ∧ entry.analysis.program.isSome = true := by
  unfold store at h
  split at h
  · rename_i hprogram
    rcases List.mem_cons.1 h with h | h
    · exact .inr ⟨h, hprogram⟩
    · exact .inl (List.mem_of_mem_filter h)
  · exact .inl h

theorem store_counters (c : Cache) (uri : String) (entry : CacheEntry) :
    (c.store uri entry).hits = c.hits ∧ (c.store uri entry).misses = c.misses := by
  unfold store
  split <;> exact ⟨rfl, rfl⟩

end Cache

namespace Session

/-! ## Steps -/

/-- A step of a session. To install `none` is to take the installed reference away. -/
inductive Step
  | analyze (given : Option SharedReference) (settings : Settings) (uri text : String)
  | invalidate (uri : String)
  | clear
  | install (ref : Option SharedReference)

namespace Step

def text? : Step → Option String
  | analyze _ _ _ text => some text
  | _ => none

def reference? : Step → Option SharedReference
  | analyze given _ _ _ => given
  | install ref => ref
  | _ => none

def isClear : Step → Bool
  | clear => true
  | _ => false

end Step

/-- What a step gives: for an analysis the analysis with its running number, or why there is
none. -/
abbrev Outcome := Option (Except ParseFault (Nat × Analysis))

def Outcome.isCompleted : Outcome → Bool
  | some (.ok _) => true
  | _ => false

def perform (s : Session) : Step → Outcome × Session
  | .analyze given settings uri text =>
    (some (s.request given settings uri text).1, (s.request given settings uri text).2)
  | .invalidate uri => (none, { s with cache := s.cache.invalidate uri })
  | .clear => (none, { s with cache := s.cache.clear })
  | .install ref => (none, s.install ref)

def after (s : Session) (steps : List Step) : Session :=
  steps.foldl (fun s step => (s.perform step).2) s

def log (s : Session) : List Step → List (Step × Outcome)
  | [] => []
  | step :: steps => (step, (s.perform step).1) :: (s.perform step).2.log steps

theorem after_concat (s : Session) (steps : List Step) (step : Step) :
    s.after (steps ++ [step]) = ((s.after steps).perform step).2 := by
  simp [after]

theorem log_concat (s : Session) (steps : List Step) (step : Step) :
    s.log (steps ++ [step]) = s.log steps ++ [(step, ((s.after steps).perform step).1)] := by
  induction steps generalizing s with
  | nil => rfl
  | cons first steps ih =>
    rw [List.cons_append, log, log, ih]
    rfl

/-- The number of analyses completed since everything was last forgotten. -/
def completedSinceClear (events : List (Step × Outcome)) : Nat :=
  (events.reverse.takeWhile fun e => !e.1.isClear).countP fun e => e.2.isCompleted

theorem completedSinceClear_concat (events : List (Step × Outcome)) (step : Step)
    (outcome : Outcome) :
    completedSinceClear (events ++ [(step, outcome)]) =
      if step.isClear then 0
      else completedSinceClear events + if outcome.isCompleted then 1 else 0 := by
  rw [completedSinceClear, List.reverse_append, List.reverse_singleton, List.singleton_append,
    List.takeWhile_cons]
  cases step.isClear with
  | true => rfl
  | false => simp [List.countP_cons, completedSinceClear]

/-! ## Counters -/

theorem request_counters (s : Session) (given : Option SharedReference) (settings : Settings)
    (uri text : String) :
    (s.request given settings uri text).2.cache.hits +
        (s.request given settings uri text).2.cache.misses =
      s.cache.hits + s.cache.misses +
        if Outcome.isCompleted (some (s.request given settings uri text).1) then 1 else 0 := by
  unfold request
  dsimp only
  rcases s.cache.request_cases (s.reference given) settings uri text with
    ⟨e, -, -, -, -, h⟩ | ⟨fault, -, h⟩ | ⟨analysis, -, h⟩
  · rw [h]
    simp only [Outcome.isCompleted, if_true]
    omega
  · rw [h]
    rfl
  · rw [h]
    simp only [Outcome.isCompleted, if_true, Cache.store_counters]
    omega

/-- The counters count the analyses that were completed since they were last set back. -/
theorem hits_add_misses (steps : List Step) :
    (empty.after steps).cache.hits + (empty.after steps).cache.misses =
      completedSinceClear (empty.log steps) := by
  induction steps using List.reverseRecOn with
  | nil => rfl
  | append_singleton steps step ih =>
    rw [after_concat, log_concat, completedSinceClear_concat, ← ih]
    cases step with
    | analyze given settings uri text => exact request_counters _ given settings uri text
    | invalidate | clear | install => rfl

/-! ## What is remembered -/

def texts (steps : List Step) : List String :=
  steps.filterMap Step.text?

def references (steps : List Step) : List SharedReference :=
  steps.filterMap Step.reference?

/-- Among the texts of the steps no two have one digest, and no two references one identity. -/
structure Distinct (steps : List Step) : Prop where
  texts : ∀ t ∈ texts steps, ∀ u ∈ texts steps, contentDigest t = contentDigest u → t = u
  references : ∀ r ∈ references steps, ∀ q ∈ references steps, r.id = q.id →
    r.reference = q.reference

/-- An entry is the analysis of one of the texts with one of the references, and has a program. -/
def Remembers (steps : List Step) (uri : String) (e : CacheEntry) : Prop :=
  ∃ text ∈ texts steps, ∃ r ∈ references steps, e.digest = contentDigest text ∧
    e.referenceId = some r.id ∧
    analyze (some r.reference) e.settings uri text = .ok e.analysis ∧
    e.analysis.program.isSome = true

/-- What is remembered comes from the steps, and so does the installed reference. -/
structure Sound (steps : List Step) (s : Session) : Prop where
  entries : ∀ x ∈ s.cache.entries, Remembers steps x.1 x.2
  installed : ∀ r ∈ s.installed, r ∈ references steps

section Sound

variable {steps : List Step} {s : Session} {given : Option SharedReference} {settings : Settings}
  {uri text : String}

theorem texts_subset {more : List Step} (h : steps ⊆ more) : texts steps ⊆ texts more := by
  intro t ht
  obtain ⟨step, hstep, ht⟩ := List.mem_filterMap.1 ht
  exact List.mem_filterMap.2 ⟨step, h hstep, ht⟩

theorem references_subset {more : List Step} (h : steps ⊆ more) :
    references steps ⊆ references more := by
  intro r hr
  obtain ⟨step, hstep, hr⟩ := List.mem_filterMap.1 hr
  exact List.mem_filterMap.2 ⟨step, h hstep, hr⟩

theorem Sound.mono {more : List Step} (h : Sound steps s) (hsub : steps ⊆ more) :
    Sound more s := by
  refine ⟨fun x hx => ?_, fun r hr => references_subset hsub (h.installed r hr)⟩
  obtain ⟨text, htext, r, hr, hentry⟩ := h.entries x hx
  exact ⟨text, texts_subset hsub htext, r, references_subset hsub hr, hentry⟩

/-- The reference of a request comes from the steps. -/
theorem Sound.reference_mem (h : Sound steps s)
    (hstep : Step.analyze given settings uri text ∈ steps) :
    ∀ r ∈ s.reference given, r ∈ references steps := by
  intro r hr
  cases given with
  | none => exact h.installed r hr
  | some q =>
    cases hr
    exact List.mem_filterMap.2 ⟨_, hstep, rfl⟩

theorem text_mem (hstep : Step.analyze given settings uri text ∈ steps) : text ∈ texts steps :=
  List.mem_filterMap.2 ⟨_, hstep, rfl⟩

theorem program_of_no_reference {a : Analysis} (h : analyze none settings uri text = .ok a) :
    a.program.isSome = false := by
  cases h
  rfl

theorem Sound.request (h : Sound steps s)
    (hstep : Step.analyze given settings uri text ∈ steps) :
    Sound steps (s.request given settings uri text).2 := by
  refine ⟨fun x hx => ?_, h.installed⟩
  unfold Session.request at hx
  dsimp only at hx
  rcases s.cache.request_cases (s.reference given) settings uri text with
    ⟨e, -, -, -, -, hreq⟩ | ⟨fault, -, hreq⟩ | ⟨analysis, hanalysis, hreq⟩
  · rw [hreq] at hx
    exact h.entries x hx
  · rw [hreq] at hx
    exact h.entries x hx
  · rw [hreq] at hx
    rcases Cache.mem_store hx with hold | ⟨rfl, hprogram⟩
    · exact h.entries x hold
    · cases href : s.reference given with
      | none =>
        rw [href] at hanalysis
        rw [program_of_no_reference hanalysis] at hprogram
        cases hprogram
      | some r =>
        rw [href] at hanalysis
        exact ⟨text, text_mem hstep, r, h.reference_mem hstep r href, rfl, rfl, hanalysis,
          hprogram⟩

theorem Sound.perform (h : Sound steps s) {step : Step} (hstep : step ∈ steps) :
    Sound steps (s.perform step).2 := by
  cases step with
  | analyze given settings uri text => exact h.request hstep
  | invalidate uri => exact ⟨fun x hx => h.entries x (List.mem_of_mem_filter hx), h.installed⟩
  | clear => exact ⟨fun x hx => absurd hx List.not_mem_nil, h.installed⟩
  | install ref =>
    exact ⟨h.entries, fun r hr => List.mem_filterMap.2 ⟨_, hstep, hr⟩⟩

theorem sound_after (steps : List Step) : Sound steps (empty.after steps) := by
  induction steps using List.reverseRecOn with
  | nil =>
    exact ⟨fun x hx => absurd hx List.not_mem_nil, fun r hr => absurd hr (Option.not_mem_none r)⟩
  | append_singleton steps step ih =>
    rw [after_concat]
    exact (ih.mono (List.subset_append_left _ _)).perform (by simp)

/-- In a sound session a request gives what an analysis made anew gives. -/
theorem Sound.request_fst (h : Sound steps s) (hdistinct : Distinct steps)
    (hstep : Step.analyze given settings uri text ∈ steps) :
    (s.request given settings uri text).1.map Prod.snd =
      s.analyzeFresh given settings uri text := by
  unfold Session.request analyzeFresh
  dsimp only
  rcases s.cache.request_cases (s.reference given) settings uri text with
    ⟨e, hmem, hdigest, hid, hsettings, hreq⟩ | ⟨fault, hfault, hreq⟩ | ⟨analysis, hanalysis, hreq⟩
  · obtain ⟨text', htext', r, hr, hdigest', hid', hanalysis, -⟩ := h.entries _ hmem
    -- the digest and the identity of the entry name its text and its reference
    have htext : text = text' :=
      hdistinct.texts text (text_mem hstep) text' htext' (hdigest.symm.trans hdigest')
    cases href : s.reference given with
    | none =>
      rw [href, hid'] at hid
      cases hid
    | some q =>
      have hq := h.reference_mem hstep q href
      rw [href, hid'] at hid
      have hrefs := hdistinct.references r hr q hq (Option.some.inj hid)
      rw [href] at hreq
      rw [hreq, htext, ← hsettings]
      dsimp only [Option.map_some]
      rw [← hrefs, hanalysis]
      rfl
  · rw [hreq, hfault]
    rfl
  · rw [hreq, hanalysis]
    rfl

theorem entries_of_no_reference (href : s.reference given = none) :
    (s.request given settings uri text).2.cache.entries = s.cache.entries := by
  unfold Session.request
  dsimp only
  rcases s.cache.request_cases (s.reference given) settings uri text with
    ⟨e, -, -, -, -, hreq⟩ | ⟨fault, -, hreq⟩ | ⟨analysis, hanalysis, hreq⟩
  · rw [hreq]
  · rw [hreq]
  · rw [hreq]
    rw [href] at hanalysis
    rw [Cache.store, if_neg (by rw [program_of_no_reference hanalysis]; exact Bool.false_ne_true)]

theorem request_of_error {fault : ParseFault}
    (h : (s.request given settings uri text).1 = .error fault) :
    (s.request given settings uri text).2 = s := by
  unfold Session.request at h ⊢
  dsimp only at h ⊢
  rcases s.cache.request_cases (s.reference given) settings uri text with
    ⟨e, -, -, -, -, hreq⟩ | ⟨fault', -, hreq⟩ | ⟨analysis, -, hreq⟩
  · rw [hreq] at h
    cases h
  · rw [hreq]
  · rw [hreq] at h
    cases h

end Sound

/-- **Remembering shows nowhere.** For all steps of a session in which digests tell the texts apart
and identities the references: each analysis gives what it gives when it is made anew, with the
reference and the settings of that moment, or fails as that fails. One without a reference is not
stored, and everything that is stored has a program and a reference. One that fails changes nothing.
Hits and misses together count the analyses completed since everything was last forgotten. -/
theorem request_transparent {steps : List Step} (h : Distinct steps) :
    (∀ before given settings uri text,
      before ++ [Step.analyze given settings uri text] <+: steps →
      let s := empty.after before
      (s.request given settings uri text).1.map Prod.snd =
          s.analyzeFresh given settings uri text ∧
        (s.reference given = none →
          (s.request given settings uri text).2.cache.entries = s.cache.entries) ∧
        ∀ fault, (s.request given settings uri text).1 = .error fault →
          (s.request given settings uri text).2 = s) ∧
    (∀ x ∈ (empty.after steps).cache.entries,
      x.2.analysis.program.isSome = true ∧ x.2.referenceId.isSome = true) ∧
    (empty.after steps).cache.hits + (empty.after steps).cache.misses =
      completedSinceClear (empty.log steps) := by
  refine ⟨fun before given settings uri text hprefix => ?_, fun x hx => ?_,
    hits_add_misses steps⟩
  · have hsub : before ⊆ steps := fun step hstep => hprefix.subset (List.mem_append_left _ hstep)
    have hsound : Sound steps (empty.after before) := (sound_after before).mono hsub
    have hstep : Step.analyze given settings uri text ∈ steps := hprefix.subset (by simp)
    exact ⟨hsound.request_fst h hstep, entries_of_no_reference, fun fault => request_of_error⟩
  · obtain ⟨text, -, r, -, -, hid, -, hprogram⟩ := (sound_after steps).entries x hx
    exact ⟨hprogram, by rw [hid]; rfl⟩

/-- A text is changed and changed back, then the reference is taken away. -/
def editSteps : List Step :=
  [.install (some ⟨"bare", bareReference⟩), .analyze none .standard "doc" "a:",
    .analyze none .standard "doc" "b:", .analyze none .standard "doc" "a:", .install none,
    .analyze none .standard "doc" "a:"]

/-- The steps of `editSteps` have two texts with two digests. -/
theorem request_transparent_edit :
    Distinct editSteps ∧
    ((empty.after (editSteps.take 3)).request none .standard "doc" "a:").1.map Prod.snd =
      (empty.after (editSteps.take 3)).analyzeFresh none .standard "doc" "a:" ∧
    ((empty.after (editSteps.take 5)).request none .standard "doc" "a:").2.cache.entries =
      (empty.after (editSteps.take 5)).cache.entries ∧
    (empty.after editSteps).cache.hits + (empty.after editSteps).cache.misses =
      completedSinceClear (empty.log editSteps) := by
  have hdigests : contentDigest "a:" ≠ contentDigest "b:" := by decide +kernel
  have hdistinct : Distinct editSteps := by
    constructor
    · intro t ht u hu h
      simp only [texts, editSteps, List.filterMap_cons, List.filterMap_nil, Step.text?,
        List.mem_cons, List.not_mem_nil, or_false] at ht hu
      grind
    · intro r hr q hq _
      simp only [references, editSteps, List.filterMap_cons, List.filterMap_nil, Step.reference?,
        List.mem_cons, List.not_mem_nil, or_false] at hr hq
      rw [hr, hq]
  obtain ⟨hrequests, -, hcounters⟩ := request_transparent hdistinct
  refine ⟨hdistinct, ?_, ?_, hcounters⟩
  · exact (hrequests (editSteps.take 3) none .standard "doc" "a:" ⟨editSteps.drop 4, rfl⟩).1
  · exact (hrequests (editSteps.take 5) none .standard "doc" "a:" ⟨[], rfl⟩).2.1 rfl

end Session

end Asm6510
