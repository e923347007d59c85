import WiredViews.Proofs.SessionHistory

namespace WiredViews

structure Registry.Kept (registry : Registry) (registrations : List Registration) : Prop where
  reflects : Reflects registrations registry.snapshot
  get : ∀ name, registry.snapshot.get? name = registry.get? name
  contains : ∀ name, registry.contains name = (registry.get? name).isSome
  listed : ∀ name, name ∈ registry.snapshot.keys ↔ registry.contains name = true
  system : registry.get? systemName = some ⟨∅, .placeholder, true⟩
  reserved : ∀ name provider, registry.get? name = some provider → (provider.reserved = true ↔ name = systemName)
  kinds : ∀ name provider, registry.get? name = some provider →
    ∀ argument allowed, provider.model.get? argument = some allowed → allowed.kinds ≠ []
  size : registry.size + 1 = registry.snapshot.size

-- What a call to register comes to: it is refused and leaves everything as it was, or it
-- changes what is held under the name and nothing else.
inductive Session.Registers (session : Session) (name : String) (conduct : Option Conduct)
    (rows : List (String × List Value)) : Session → Report → Prop where
  | refused {after : Session} {report : Report} {fault : RegistrationFault}
      (answer : report.answer = .error (.registration fault)) (same : after = session)
      (unfit : conduct.isSome = true → ∀ model, ¬ Admits name rows model) :
      Registers session name conduct rows after report
  | accepted {after : Session} {report : Report} {model : ArgumentModel}
      (callable : conduct.isSome = true) (admits : Admits name rows model)
      (answer : report.answer = .ok (.provider name (after.registry.get? name)))
      (own : after.registry.get? name = some ⟨model, .registered session.conducts.length, false⟩)
      (others : ∀ other, other ≠ name → after.registry.get? other = session.registry.get? other)
      (order : after.registry.snapshot.keys =
        if name ∈ session.registry.snapshot.keys then session.registry.snapshot.keys
        else session.registry.snapshot.keys ++ [name]) :
      Registers session name conduct rows after report

namespace Session
variable {session : Session} {registrations : List Registration}

theorem Follows.reserved (follows : session.Follows registrations) {name : String} {provider : Provider}
    (held : session.registry.get? name = some provider) : provider.reserved = true ↔ name = systemName := by
  rw [← Registry.snapshot_get?] at held
  rcases follows.admitted held with ⟨rfl, rfl⟩ | ⟨rows, admits, registered⟩
  · exact iff_of_true rfl rfl
  · rw [registered]
    exact iff_of_false nofun admits.free

theorem Follows.kept (follows : session.Follows registrations) : session.registry.Kept registrations := by
  have reflects := follows.reflects
  constructor
  case reflects => exact reflects
  case get => exact session.registry.snapshot_get?
  case contains => exact session.registry.contains_eq
  case listed =>
    intro name
    rw [session.registry.contains_eq, ← session.registry.snapshot_get?, Table.mem_keys, Option.isSome_iff_exists]
  case system => exact (session.registry.snapshot_get? systemName).symm.trans reflects.system
  case reserved => exact fun name provider held => follows.reserved held
  case kinds => exact fun _ _ _ _ allowed _ => kinds_ne_nil allowed
  case size => exact (Registry.snapshot_size follows.free).symm

theorem Follows.registers (follows : session.Follows registrations) (name : String) (conduct : Option Conduct)
    (rows : List (String × List Value)) :
    session.Registers name conduct rows (session.perform (.register name conduct rows)).1
      (session.perform (.register name conduct rows)).2 := by
  change session.Registers name conduct rows (session.register name conduct rows).1 (session.register name conduct rows).2
  unfold register
  cases went : session.registry.register name (conduct.map fun _ => session.conducts.length) rows with
  | error fault =>
    refine .refused rfl rfl fun callable model admits => ?_
    obtain ⟨given, rfl⟩ := Option.isSome_iff_exists.mp callable
    rw [Option.map_some, Registry.register_exact.mpr ⟨_, model, rfl, admits, rfl⟩] at went
    cases went
  | ok after =>
    obtain ⟨number, model, callable, admits, rfl⟩ := Registry.register_exact.mp went
    cases conduct with
    | none => cases callable
    | some given =>
      cases callable
      refine .accepted rfl admits rfl ?_ (fun other differ => ?_) (Registry.snapshot_keys_written follows.free admits.free)
      · exact (session.registry.get?_written).trans (if_pos rfl)
      · exact (session.registry.get?_written).trans (if_neg (Ne.symm differ))

theorem registry_kept (settings : Settings) (commands : List Command) :
    (reach settings commands).registry.Kept (Session.registrations settings commands) ∧
      ∀ name conduct rows, (reach settings commands).Registers name conduct rows
        ((reach settings commands).perform (.register name conduct rows)).1
        ((reach settings commands).perform (.register name conduct rows)).2 := by
  have follows := reach_follows settings commands
  exact ⟨follows.kept, follows.registers⟩

end Session
end WiredViews
