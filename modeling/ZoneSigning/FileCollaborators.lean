import ZoneSigning.Engine

/-!
The collaborators of an engine whose zones live in files and whose signatures are only counted.
-/
namespace ZoneSigning

/-- Files, and the signatures made. -/
structure FileWorld where
  files : FileStore := {}
  signatures : SignatureCount := {}
deriving Inhabited

instance : HasFiles FileWorld where
  files := FileWorld.files
  withFiles world files := { world with files := files }

def fileCollaborators : Collaborators FileWorld where
  loadConfig z world := ((z.state.loadConfig z.key world.files).mapError .config, world)
  read z world :=
    match z.state.readInput z.key world.files with
    | .ok (status, s) => (.ok status, s, world)
    | .error fault => (.error (.adapter fault), z.state, world)
  write z world :=
    let (answer, files) := world.files.writeOutput z z.state
    (answer.mapError .adapter, z.state, { world with files := files })
  sign job world :=
    let (answer, signatures) := world.signatures.sign job
    (answer.mapError .signer, { world with signatures := signatures })

end ZoneSigning
