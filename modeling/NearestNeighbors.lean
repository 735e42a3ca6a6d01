import NearestNeighbors.Main
import NearestNeighbors.Pipeline
import NearestNeighbors.Session
import NearestNeighbors.Table.Writer
import NearestNeighbors.Proofs.Error
import NearestNeighbors.Proofs.Pipeline
import NearestNeighbors.Proofs.Session.History
import NearestNeighbors.Proofs.Table.Boundary
import NearestNeighbors.Proofs.Table.Writer
import NearestNeighbors.Proofs.Permutation.Fairness
import NearestNeighbors.Proofs.Split.Nested
import NearestNeighbors.Proofs.Split.Ceiling
import NearestNeighbors.Proofs.Classifier.Exact
import NearestNeighbors.Proofs.Classifier.Recall
import NearestNeighbors.Proofs.Classifier.Reordered
import NearestNeighbors.Proofs.Classifier.Unchosen
import NearestNeighbors.Proofs.Classifier.Relabelled
import NearestNeighbors.Proofs.Distance.Symmetry
import NearestNeighbors.Proofs.Session.Scores
import NearestNeighbors.Proofs.Table.Number
import NearestNeighbors.Proofs.Table.Position
