import Subscription.Proofs.Manager.InMemory
import Subscription.Proofs.Manager.OnDisk

/-!
What a storage gives back. An attachment that is stored is read as it was, from files as from memory, and
with the fields of its contract in any order. In memory it is always stored; in files it is stored unless
a file stands where a directory is needed, or a directory in the place of the file. What was read from any
document that is an attachment can be stored in its place without a loss.
-/

namespace Subscription

namespace Storage

variable {m : Type → Type} [Monad m]

def restore (s : Storage m) (order : List ContractRecord.Field) (a : Attachment) :
    ExceptT Fault m Attachment := do
  s.writeAttachmentBy order a
  s.readAttachment

def rewrite (s : Storage m) (order : List ContractRecord.Field) : ExceptT Fault m Attachment := do
  s.restore order (← s.readAttachment)

end Storage

variable {order : List ContractRecord.Field} {a : Attachment} {home : String} {m : Machine}

/-! ### In memory -/

namespace Embedded

def storage : Storage (StateM Embedded) :=
  .inMemory memoryCell

theorem exec_readAttachment (e : Embedded) : exec storage.readAttachment e = (.ok e.attachment, e) :=
  rfl

theorem exec_restore (hnd : order.Nodup) (hall : ∀ f, f ∈ order) (a : Attachment) (e : Embedded) :
    exec (storage.restore order a) e =
      (.ok a, { e with memory := e.memory.write Storage.attachmentName (a.toJsonBy order) }) := by
  have hread := exec_readAttachment
    { e with memory := e.memory.write Storage.attachmentName (a.toJsonBy order) }
  rw [attachment, Memory.read_write_self, a.ofStored_parse hnd hall] at hread
  exact hread

end Embedded

/-! ### In files -/

namespace Machine

open FileTree

def storage (home : String) : Storage (StateM Machine) :=
  .inFiles files home

def Open (home : String) (m : Machine) : Prop :=
  m.tree.Ready (Path.place home "state") Storage.attachmentName

theorem target_attachment (home : String) :
    Path.target (Storage.valuePath home Storage.attachmentName) =
      ⟨Path.place home "state" ++ [Storage.attachmentName], false⟩ :=
  target_below isName_state isName_attachmentName home

theorem target_state (home : String) :
    Path.target (Path.join [home, "state"]) = ⟨Path.place home "state", false⟩ :=
  Path.target_join isName_state home

theorem read_of_stored {text : String} (h : stored home m = some text) :
    m.tree.read ⟨Path.place home "state" ++ [Storage.attachmentName], false⟩ = .ok text := by
  rw [stored] at h
  generalize m.tree.read _ = result at h ⊢
  cases result with
  | error e => cases h
  | ok _ => exact congrArg Except.ok (Option.some.inj h)

theorem exec_readAttachment {text : String} (h : stored home m = some text) :
    exec (storage home).readAttachment m = (.ok (.ofStored (Json.parse text)), m) := by
  rw [Storage.readAttachment, storage, exec_bind, exec_read, target_attachment, read_of_stored h]
  rfl

theorem open_of_stored {text : String} (h : stored home m = some text) : Open home m := by
  obtain ⟨hleads, hfile⟩ := read_eq_ok_iff.mp (read_of_stored h)
  exact ⟨hleads.passable, by simp [hfile]⟩

theorem exec_write (home name : String) (v : Json) (m : Machine) :
    exec ((storage home).write name v) m =
      match m.tree.makeDirs (Path.target (Path.join [home, "state"])) with
      | .error e => (.error (.file e), m)
      | .ok u =>
        match u.modify (Path.target (Storage.valuePath home name)) fun _ => v.indented with
        | .ok u' => (.ok (), { m with tree := u' })
        | .error e => (.error (.file e), { m with tree := u }) := by
  simp only [storage, Storage.inFiles, write_files]
  generalize Path.join [home, "state"] = directory
  generalize Storage.valuePath home name = path
  exact exec_amend directory path (fun _ => v.indented) m

theorem exec_append (home log line : String) (m : Machine) :
    exec ((storage home).append log line) m =
      match m.tree.makeDirs (Path.target (Path.join [home, "logs"])) with
      | .error e => (.error (.file e), m)
      | .ok u =>
        match u.modify (Path.target (Storage.logPath home log)) (· ++ (line ++ "\n")) with
        | .ok u' => (.ok (), { m with tree := u' })
        | .error e => (.error (.file e), { m with tree := u }) := by
  simp only [storage, Storage.inFiles, append_files]
  generalize Path.join [home, "logs"] = directory
  generalize Storage.logPath home log = path
  generalize line ++ "\n" = text
  exact exec_amend directory path (· ++ text) m

/-- Storing an attachment puts its text into the file, or fails since something is in the way. -/
theorem exec_writeAttachmentBy (home : String) (order : List ContractRecord.Field) (a : Attachment)
    (m : Machine) :
    (Open home m ∧ ∃ m', exec ((storage home).writeAttachmentBy order a) m = (.ok (), m') ∧
        stored home m' = some (a.toJsonBy order).indented) ∨
      (¬Open home m ∧ ∃ e m', exec ((storage home).writeAttachmentBy order a) m =
        (.error (.file e), m')) := by
  rw [Storage.writeAttachmentBy, exec_write, target_state, target_attachment]
  rcases makeDirs_cases m.tree (Path.place home "state") false with
    ⟨hpassable, u, hmake, hleads, hsame⟩ | ⟨hblocked, e, hmake⟩
  · have hfile : u.find? (Path.place home "state" ++ [Storage.attachmentName]) =
        m.tree.find? (Path.place home "state" ++ [Storage.attachmentName]) :=
      hsame _ (not_beyond (List.prefix_refl _))
    simp only [hmake]
    by_cases hfree : m.tree.find? (Path.place home "state" ++ [Storage.attachmentName]) = some .directory
    · rw [modify_directory hleads (hfile.trans hfree)]
      exact Or.inr ⟨fun h => h.free hfree, _, _, rfl⟩
    · obtain ⟨old, hmodify⟩ := modify_child hleads (hfile ▸ hfree) fun _ => (a.toJsonBy order).indented
      rw [hmodify]
      refine Or.inl ⟨⟨hpassable, hfree⟩, _, rfl, ?_⟩
      rw [stored, read_eq_ok_iff.mpr ⟨(sameOutside_set _).leads hleads, find?_set_self u _ (by simp)⟩]
      rfl
  · simp only [hmake]
    exact Or.inr ⟨fun h => hblocked h.passable, e, m, rfl⟩

theorem exec_restore (hnd : order.Nodup) (hall : ∀ f, f ∈ order) (a : Attachment) (h : Open home m) :
    ∃ m', exec ((storage home).restore order a) m = (.ok a, m') := by
  rcases exec_writeAttachmentBy home order a m with ⟨-, m', hwrite, hstored⟩ | ⟨hclosed, -⟩
  · refine ⟨m', ?_⟩
    rw [Storage.restore, exec_bind, hwrite]
    simp only [exec_readAttachment hstored, a.ofStored_parse_indented hnd hall]
  · exact absurd h hclosed

end Machine

/-! ### Round trips -/

/-- What is stored is what is read: in memory always, and in files whenever it can be stored, which is when
nothing is in the way of the file. An attachment that was read from any document goes back unchanged. -/
theorem restore_attachment (hnd : order.Nodup) (hall : ∀ f, f ∈ order) (a : Attachment) :
    (∀ e : Embedded, exec (Embedded.storage.restore order a) e =
      (.ok a, { e with memory := e.memory.write Storage.attachmentName (a.toJsonBy order) })) ∧
    (∀ home m, ((exec ((Machine.storage home).writeAttachmentBy order a) m).1 = .ok () ↔
        Machine.Open home m) ∧
      (Machine.Open home m → ∃ m', exec ((Machine.storage home).restore order a) m = (.ok a, m'))) ∧
    ∀ v, Attachment.ofJson? v = some a →
      (∀ e : Embedded, e.memory.read Storage.attachmentName = some v →
        ∃ e', exec (Embedded.storage.rewrite order) e = (.ok a, e')) ∧
      (∀ home m, (Machine.stored home m).bind Json.parse = some v →
        ∃ m', exec ((Machine.storage home).rewrite order) m = (.ok a, m')) := by
  refine ⟨Embedded.exec_restore hnd hall a, fun home m => ⟨?_, Machine.exec_restore hnd hall a⟩,
    fun v hv => ⟨fun e he => ?_, fun home m hm => ?_⟩⟩
  · rcases Machine.exec_writeAttachmentBy home order a m with ⟨hopen, m', hwrite, -⟩ |
      ⟨hclosed, e, m', hwrite⟩
    · simp [hwrite, hopen]
    · simp [hwrite, hclosed]
  · have hread : e.attachment = a := by
      rw [Embedded.attachment, he]
      exact congrArg (Option.getD · _) hv
    rw [Storage.rewrite, exec_bind, Embedded.exec_readAttachment, hread]
    exact ⟨_, Embedded.exec_restore hnd hall a e⟩
  · obtain ⟨text, hstored, hparse⟩ := Option.bind_eq_some_iff.mp hm
    have hread : Attachment.ofStored (Json.parse text) = a := by
      rw [hparse]
      exact congrArg (Option.getD · _) hv
    rw [Storage.rewrite, exec_bind, Machine.exec_readAttachment hstored, hread]
    exact Machine.exec_restore hnd hall a (Machine.open_of_stored hstored)

def Attachment.escaped : Attachment :=
  ⟨true, ["\"a\"", "b\\", ""], [], some ⟨"k\n\u0001", "é𝄞", "", none⟩⟩

def Embedded.escaped : Embedded :=
  { empty with memory := Memory.empty.write Storage.attachmentName Attachment.escaped.toJson }

theorem Embedded.read_escaped :
    escaped.memory.read Storage.attachmentName = some Attachment.escaped.toJson := by
  rw [escaped, Memory.read_write_self, Attachment.toJson,
    (Attachment.escaped.plain_toJsonBy (by decide)).parse_compact]

/-- The file of the broken machine is replaced, and the memory is written again with the fields of the
contract turned round. -/
theorem restore_attachment_escaped :
    (∃ m', exec ((Machine.storage "/pro").restore [.instanceId, .attachedAt, .token, .name]
      Attachment.escaped) Machine.broken = (.ok Attachment.escaped, m')) ∧
    ∃ e', exec (Embedded.storage.rewrite [.instanceId, .attachedAt, .token, .name]) Embedded.escaped =
      (.ok Attachment.escaped, e') := by
  have hall : ∀ f, f ∈ [ContractRecord.Field.instanceId, .attachedAt, .token, .name] := by
    intro f
    cases f <;> decide
  obtain ⟨-, hfiles, hread⟩ := restore_attachment (by decide) hall Attachment.escaped
  have hjson : Attachment.ofJson? Attachment.escaped.toJson = some Attachment.escaped :=
    Attachment.escaped.ofJson?_toJsonBy fun f => by cases f <;> decide
  exact ⟨(hfiles "/pro" Machine.broken).2 Machine.usable_broken.state,
    (hread _ hjson).1 _ Embedded.read_escaped⟩

end Subscription
