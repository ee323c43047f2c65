import SuiteMake.Proofs.Draft.Generate

/-!
# Outdated files

The files that are reported as outdated are those whose bytes a generation changes.
-/

namespace SuiteMake

end SuiteMake
