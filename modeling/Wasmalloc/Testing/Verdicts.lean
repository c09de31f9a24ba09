import Wasmalloc.Testing.Runs

/- The verdicts of the tester.

   Against an allocator that obeys its contract a run of a preset raises no false alarm
   (`no_false_alarm`): it returns `Ok` with nothing live, or reports that the allocator
   refused. -/
namespace Wasmalloc.Testing

variable [Build] {A E : Type} [RawAlloc A] [Entropy E] {a : A} {e : E} {profile : Profile} {ops : Nat}

/-! ## The end of a run -/

/-- Where a run that did not end by a failed check stands. -/
def Ended (a : A) (profile : Profile) (stop : Stop) (s : Session A E) : Prop :=
  ∀ f, stop = .failure f → f.kind = .allocFailed → Reached a profile s

theorem turn_reached (i : Nat) : Act.Spec (Reached a profile) (Model.turn i : Drive A E Bool)
    (fun _ s => Reached a profile s) (Ended a profile) := by
  intro s hs
  cases hr : (Model.turn i).run s with
  | mk r t =>
    cases r with
    | ok more => exact hs.turn hr
    | error stop =>
      intro f hf hk
      subst hf
      exact hs.refused hr hk

/-- The check `x` takes a session from a state between operations to another. -/
def Steps (a : A) (profile : Profile) (x : Check A Unit) : Prop :=
  ∀ s : Session A E, Act.Spec (fun m => Reached a profile { s with model := m }) x
    (fun _ m => Reached a profile { s with model := m })
    fun stop m => Ended a profile stop { s with model := m }

theorem drain_steps : Steps (E := E) a profile Model.drain := by
  intro s
  unfold Model.drain
  refine Act.Spec.get fun m hm => ?_
  refine (Act.Spec.loop (n := m.live.length) (I := fun _ m => Reached a profile { s with model := m })
    (D := fun m => Reached a profile { s with model := m }) (fun i _ => ?_) (fun _ h => h) _ 0
    (Nat.zero_add _)).pre fun t ht => ht ▸ hm
  intro m hm
  have hsound := drainOne_sound hm.sound.1
  cases hr : Model.drainOne.run m with
  | mk r t =>
    rw [hr] at hsound
    cases r with
    | ok more => exact ⟨fun _ => hm.drain hr, fun _ => hm.drain hr⟩
    | error stop => exact fun f hf hk => absurd hk (hsound f hf)

theorem sweep_steps (i : Nat) : Steps (E := E) a profile (Model.sweep i) := by
  intro s
  unfold Model.sweep
  refine Act.Spec.get fun m hm => ?_
  split
  · exact (drain_steps s).pre fun t ht => ht ▸ hm
  · exact Act.Spec.pure fun t ht => ht ▸ hm

theorem Steps.onModel {x : Check A Unit} (h : Steps (E := E) a profile x) :
    Act.Spec (Reached a profile) (onModel x : Drive A E Unit) (fun _ s => Reached a profile s)
      (Ended a profile) :=
  Act.Spec.zoom fun s hs => (h s).pre fun _ hm => hm ▸ hs

theorem drive_reached : Act.Spec (fun s => s = ⟨Model.new a profile, e⟩) (drive ops profile)
    (fun _ s => Reached a profile s) (Ended a profile) := by
  unfold drive
  refine Act.Spec.bind (validate_spec (Or.inr fun _ _ f h => by cases h)) fun _ => ?_
  refine Act.Spec.bind ((Act.Spec.loop (n := ops) (I := fun _ s => Reached a profile s)
    (D := Reached a profile) (fun i _ => ?_) (fun _ h => h) _ 0 (Nat.zero_add _)).pre
    fun s hs => hs.1 ▸ Reached.start e hs.2) fun _ => ?_
  · refine Act.Spec.bind (turn_reached i) fun more => ?_
    cases more with
    | false => exact Act.Spec.pure fun s hs => ⟨nofun, fun _ => hs⟩
    | true =>
      exact Act.Spec.bind (sweep_steps i).onModel fun _ =>
        Act.Spec.pure fun s hs => ⟨fun _ => hs, nofun⟩
  · exact Act.Spec.bind drain_steps.onModel fun _ =>
      Act.Spec.get fun s hs => Act.Spec.pure fun t ht => ht ▸ hs

/-! ## No false alarm -/

/-- A refusal of the allocator. -/
def Refused (stop : Stop) : Prop := ∃ f, stop = .failure f ∧ f.kind = .allocFailed

/-- How a run ends that raises no false alarm. -/
def Verdict (a : A) (profile : Profile) : Except Stop Stats × Session A E → Prop :=
  Act.Ends
    (fun stats s => Reached a profile s ∧ s.model.live = [] ∧
      stats.deallocs = stats.allocs + stats.zeroedAllocs)
    (fun stop s => Refused stop ∧ Reached a profile s)

theorem runWith_verdict {ok : A → Held → Prop} (hob : Obeys ok) (hok : ok a ∅)
    (hp : profile ∈ Profile.all) (hops : ops < usizeSize) :
    Verdict a profile (runWith a e ops profile) := by
  have hH : Permits profile ops (fun stop (_ : Session A E) => Refused stop) :=
    { tame := Or.inl (all_tame profile hp), index := Or.inl hops
      refused := fun f _ hk _ _ => ⟨f, rfl, hk⟩ }
  have hend := (drive_spec (e := e) hob hH (Or.inl hok)).and (drive_reached) _ ⟨rfl, rfl⟩
  refine hend.imp (fun stats s ⟨⟨hgo, hnil, hstats⟩, hr⟩ => ⟨hr, hnil, ?_⟩)
    fun stop s ⟨⟨f, hf, hk⟩, hr⟩ => ⟨⟨f, hf, hk⟩, hr f hf hk⟩
  rcases hgo.counts with hc | hc
  · have hfreed := hc.freed
    rw [hnil, ← hstats] at hfreed
    rw [hfreed]
    exact (Nat.zero_add _).symm
  · -- A panic is no refusal.
    obtain ⟨f, hf, -⟩ := hc "" s
    cases hf

/-- **No false alarm**: with an allocator that obeys its contract, any entropy and any number of
    operations, a run of a preset frees all it allocated or reports a refusal; on the way the
    books hold exactly the live blocks, within the cap. -/
theorem no_false_alarm {ok : A → Held → Prop} (hob : Obeys ok) (hok : ok a ∅)
    (hp : profile ∈ Profile.all) (hops : ops < usizeSize) :
    Verdict a profile (runWith a e ops profile) ∧
      ∀ s : Session A E, Reached a profile s →
        s.model.byAddr.entries.Perm (s.model.live.map Block.interval) ∧
        s.model.liveBytes = (s.model.live.map fun block => block.layout.size).sum ∧
        s.model.liveBytes ≤ profile.maxLiveBytes := by
  refine ⟨runWith_verdict hob hok hp hops, fun s hs => ?_⟩
  obtain ⟨⟨hbooks, hcap, -⟩, hprofile⟩ := hs.sound
  exact ⟨hbooks.intervals, hbooks.bytes, hprofile ▸ hcap⟩

end Wasmalloc.Testing
